import Mathlib.Data.List.Basic
import Sundries.Machine

/-!
# Fork and join

A program gives parts of its work to threads of their own, does the last part itself, takes
the results of the others in order and joins the threads before it leaves, by a value or by
an exception.  `ForkJoin` is such a program, for any kind of work on any shared state: a
piece of work takes a step on the shared state, with what is left of it or its end as the
outcome, or has undefined behaviour.

The rules for it are those of rely and guarantee.  Each part has a predicate `Local` on the
shared state and what is left of the part, and a predicate `Post` on the shared state and
what the part ended with; a step of one part keeps the predicates of the others (`Sound`).
Then no part has undefined behaviour, whatever the order of the steps, and where the program
has left all threads have ended (`Sound.of_done`) and its outcome is its own exception, or
else the first of a thread, or else what it makes of all results (`Outcome`).
-/
namespace Sundries

/-- A program that forks `workers`, does `own`, and adds up the results from `start`. -/
structure ForkJoin (S W R E O : Type) where
  /-- A step of a piece of work, with what is left of it or its result or exception; nothing
  for undefined behaviour. -/
  work : S → W → Option (S × (W ⊕ Except E R))
  workers : List W
  own : W
  start : O
  add : O → R → O

namespace ForkJoin

/-- A thread's part: under way, or ended with a result or an exception. -/
inductive Task (W R E : Type) where
  | running (w : W)
  | ended (r : Except E R)

/-- Where the forking thread is. -/
inductive Main (W R E O : Type) where
  /-- About to create a thread for each of `todo`. -/
  | launch (todo : List W)
  | own (w : W)
  /-- Its own part gave `last`; about to take the result of thread `i`. -/
  | get (i : ℕ) (last : R) (acc : O)
  /-- On its way out; about to join thread `i`. -/
  | leave (i : ℕ) (outcome : Except E O)
  | done (outcome : Except E O)
  | fault

structure State (S W R E O : Type) where
  shared : S
  tasks : List (Task W R E)
  main : Main W R E O

/-- Who moves. -/
inductive Label where
  | main
  | task (i : ℕ)

variable {S W R E O : Type} (P : ForkJoin S W R E O)

/-- A step of the forking thread.  It waits in `get` and `leave` for the thread to end. -/
def stepMain (s : State S W R E O) : Option (State S W R E O) :=
  match s.main with
  | .launch [] => some { s with main := .own P.own }
  | .launch (w :: todo) => some { s with tasks := s.tasks ++ [.running w], main := .launch todo }
  | .own w =>
    match P.work s.shared w with
    | none => some { s with main := .fault }
    | some (shared, .inl w') => some { s with shared := shared, main := .own w' }
    | some (shared, .inr (.ok last)) =>
      some { s with shared := shared, main := .get 0 last P.start }
    | some (shared, .inr (.error e)) =>
      some { s with shared := shared, main := .leave 0 (.error e) }
  | .get i last acc =>
    match s.tasks[i]? with
    | none => some { s with main := .leave 0 (.ok (P.add acc last)) }
    | some (.running _) => none
    | some (.ended (.ok r)) => some { s with main := .get (i + 1) last (P.add acc r) }
    | some (.ended (.error e)) => some { s with main := .leave 0 (.error e) }
  | .leave i outcome =>
    match s.tasks[i]? with
    | none => some { s with main := .done outcome }
    | some (.running _) => none
    | some (.ended _) => some { s with main := .leave (i + 1) outcome }
  | .done _ | .fault => none

/-- A step of thread `i`. -/
def stepTask (s : State S W R E O) (i : ℕ) : Option (State S W R E O) :=
  match s.main, s.tasks[i]? with
  | .fault, _ => none
  | _, some (.running w) =>
    match P.work s.shared w with
    | none => some { s with main := .fault }
    | some (shared, .inl w') =>
      some { s with shared := shared, tasks := s.tasks.set i (.running w') }
    | some (shared, .inr r) => some { s with shared := shared, tasks := s.tasks.set i (.ended r) }
  | _, _ => none

/-- The program, its forking thread in `main` to begin with. -/
def machine (shared : S) (main : Main W R E O) : Machine (State S W R E O) Label where
  init := ⟨shared, [], main⟩
  step s
    | .main => P.stepMain s
    | .task i => P.stepTask s i

/-- The program from its beginning. -/
def program (shared : S) : Machine (State S W R E O) Label := P.machine shared (.launch P.workers)

/-- What the program makes of the results `rs` of the threads and `last` of its own part. -/
def combine (rs : List R) (last : R) : O := P.add (rs.foldl P.add P.start) last

/-! ## What the program leaves with -/

/-- `o` is the outcome for the given ends of the program's own part and of the threads: its own
exception, else that of the first thread with one, else the results combined. -/
inductive Outcome (own : Except E R) (tasks : List (Task W R E)) : Except E O → Prop where
  | own (e : E) (h : own = .error e) : Outcome own tasks (.error e)
  | worker (last : R) (before : List R) (e : E) (after : List (Task W R E)) (hown : own = .ok last)
      (h : tasks = before.map (fun r => .ended (.ok r)) ++ .ended (.error e) :: after) :
      Outcome own tasks (.error e)
  | all (last : R) (rs : List R) (hown : own = .ok last)
      (h : tasks = rs.map fun r => .ended (.ok r)) : Outcome own tasks (.ok (P.combine rs last))

/-- All of the tasks have ended. -/
def AllEnded (tasks : List (Task W R E)) : Prop := ∀ task ∈ tasks, ∃ r, task = .ended r

theorem allEnded_map (rs : List R) :
    AllEnded (rs.map fun r => (.ended (.ok r) : Task W R E)) := by
  intro task htask
  obtain ⟨r, -, rfl⟩ := List.mem_map.mp htask
  exact ⟨.ok r, rfl⟩

theorem allEnded_singleton (r : Except E R) : AllEnded [(.ended r : Task W R E)] := by
  intro task htask
  exact ⟨r, List.mem_singleton.mp htask⟩

theorem AllEnded.append {tasks tasks' : List (Task W R E)} (h : AllEnded tasks)
    (h' : AllEnded tasks') : AllEnded (tasks ++ tasks') := by
  intro task htask
  rcases List.mem_append.mp htask with hmem | hmem
  · exact h task hmem
  · exact h' task hmem

/-- Tasks that have ended stay as they are when a running one moves. -/
theorem AllEnded.set_append {tasks rest : List (Task W R E)} (h : AllEnded tasks) {i : ℕ} {w : W}
    (hi : (tasks ++ rest)[i]? = some (.running w)) (task : Task W R E) :
    ∃ rest', (tasks ++ rest).set i task = tasks ++ rest' := by
  by_cases hlt : i < tasks.length
  · rw [List.getElem?_append_left hlt] at hi
    obtain ⟨r, hr⟩ := h _ (List.mem_of_getElem? hi)
    cases hr
  · exact ⟨_, List.set_append_right _ _ (by omega)⟩

/-- A task that moves does not change the outcome. -/
theorem Outcome.set {own : Except E R} {tasks : List (Task W R E)} {o : Except E O}
    (h : P.Outcome own tasks o) {i : ℕ} {w : W} (hi : tasks[i]? = some (.running w))
    (task : Task W R E) : P.Outcome own (tasks.set i task) o := by
  cases h with
  | own e hown => exact .own e hown
  | worker last before e after hown htasks =>
    have hend := (allEnded_map (W := W) (E := E) before).append
      (allEnded_singleton (.error e))
    rw [htasks, List.append_cons] at hi ⊢
    obtain ⟨rest, hrest⟩ := hend.set_append hi task
    exact .worker last before e rest hown (by rw [hrest, List.append_cons _ _ rest])
  | all last rs hown htasks =>
    rw [htasks] at hi
    obtain ⟨r, hr⟩ := allEnded_map rs _ (List.mem_of_getElem? hi)
    cases hr

/-! ## Rely and guarantee -/

/-- What a task stands for: its local predicate while it runs, its postcondition afterwards. -/
def Task.Meets (Local : S → W → Prop) (Post : S → Except E R → Prop) (shared : S) :
    Task W R E → Prop
  | .running w => Local shared w
  | .ended r => Post shared r

/-- **Rely and guarantee.**  The parts are numbered, the program's own being the last.  From
its local predicate each part has a defined step, to its local predicate again or to its
postcondition, and the step keeps the predicates of the other parts. -/
structure Sound (Local : ℕ → S → W → Prop) (Post : ℕ → S → Except E R → Prop) : Prop where
  step : ∀ k shared w, Local k shared w → ∃ shared' out, P.work shared w = some (shared', out) ∧
    Sum.elim (Local k shared') (Post k shared') out ∧
    ∀ j task, j ≠ k → Task.Meets (Local j) (Post j) shared task →
      Task.Meets (Local j) (Post j) shared' task

variable {P} {Local : ℕ → S → W → Prop} {Post : ℕ → S → Except E R → Prop}

/-- What holds of the forking thread. -/
def MainInv (P : ForkJoin S W R E O) (Local : ℕ → S → W → Prop) (Post : ℕ → S → Except E R → Prop)
    (shared : S) (tasks : List (Task W R E)) : Main W R E O → Prop
  | .launch todo => tasks.length + todo.length = P.workers.length ∧
      (∀ j w, todo[j]? = some w → Local (tasks.length + j) shared w) ∧
      Local P.workers.length shared P.own
  | .own w => tasks.length = P.workers.length ∧ Local P.workers.length shared w
  | .get i last acc => tasks.length = P.workers.length ∧ Post P.workers.length shared (.ok last) ∧
      ∃ (rs : List R) (rest : List (Task W R E)), rs.length = i ∧
        tasks = rs.map (fun r => .ended (.ok r)) ++ rest ∧ acc = rs.foldl P.add P.start
  | .leave i outcome => tasks.length = P.workers.length ∧
      (∃ own, Post P.workers.length shared own ∧ P.Outcome own tasks outcome) ∧
      ∃ before rest : List (Task W R E), before.length = i ∧ AllEnded before ∧
        tasks = before ++ rest
  | .done outcome => tasks.length = P.workers.length ∧
      (∃ own, Post P.workers.length shared own ∧ P.Outcome own tasks outcome) ∧ AllEnded tasks
  | .fault => False

/-- The invariant: every task stands for its predicate, and the forking thread for its own. -/
structure Invariant (P : ForkJoin S W R E O) (Local : ℕ → S → W → Prop)
    (Post : ℕ → S → Except E R → Prop) (s : State S W R E O) : Prop where
  tasks : ∀ i task, s.tasks[i]? = some task → Task.Meets (Local i) (Post i) s.shared task
  main : MainInv P Local Post s.shared s.tasks s.main

/-- The forking thread's predicate holds again after a step of a task. -/
theorem MainInv.stepTask {shared shared' : S} {tasks : List (Task W R E)}
    {main : Main W R E O} {i : ℕ} {w : W} {task : Task W R E}
    (h : MainInv P Local Post shared tasks main) (hi : tasks[i]? = some (.running w))
    (hlen : tasks.length ≤ P.workers.length)
    (hkeep : ∀ j task, j ≠ i → Task.Meets (Local j) (Post j) shared task →
      Task.Meets (Local j) (Post j) shared' task) :
    MainInv P Local Post shared' (tasks.set i task) main := by
  obtain ⟨hlt, -⟩ := List.getElem?_eq_some_iff.mp hi
  have hown : P.workers.length ≠ i := by omega
  cases main with
  | launch todo =>
    obtain ⟨hcount, htodo, hlocal⟩ := h
    refine ⟨by rw [List.length_set]; exact hcount, fun j v hj => ?_,
      hkeep _ (.running _) hown hlocal⟩
    rw [List.length_set]
    exact hkeep _ (.running v) (by omega) (htodo j v hj)
  | own v =>
    obtain ⟨hcount, hlocal⟩ := h
    exact ⟨by rw [List.length_set]; exact hcount, hkeep _ (.running v) hown hlocal⟩
  | get k last acc =>
    -- the task that moves is running, so it is none of those whose results have been taken
    obtain ⟨hcount, hpost, rs, rest, hrs, htasks, hacc⟩ := h
    rw [htasks] at hi
    obtain ⟨rest', hrest⟩ := (allEnded_map rs).set_append hi task
    refine ⟨by rw [List.length_set]; exact hcount, hkeep _ (.ended _) hown hpost, rs, rest', hrs,
      ?_, hacc⟩
    rw [htasks, hrest]
  | leave k outcome =>
    obtain ⟨hcount, ⟨own, hpost, hout⟩, before, rest, hbefore, hended, htasks⟩ := h
    have hout' := hout.set P hi task
    rw [htasks] at hi
    obtain ⟨rest', hrest⟩ := hended.set_append hi task
    refine ⟨by rw [List.length_set]; exact hcount,
      ⟨own, hkeep _ (.ended own) hown hpost, hout'⟩, before, rest', hbefore, hended, ?_⟩
    rw [htasks, hrest]
  | done outcome =>
    obtain ⟨-, -, hended⟩ := h
    obtain ⟨r, hr⟩ := hended _ (List.mem_of_getElem? hi)
    cases hr
  | fault => exact h.elim

/-- No more tasks than threads to launch. -/
theorem MainInv.length_le {shared : S} {tasks : List (Task W R E)} {main : Main W R E O}
    (h : MainInv P Local Post shared tasks main) : tasks.length ≤ P.workers.length := by
  cases main with
  | launch todo =>
    have := h.1
    omega
  | own w => exact Nat.le_of_eq h.1
  | get i last acc => exact Nat.le_of_eq h.1
  | leave i outcome => exact Nat.le_of_eq h.1
  | done outcome => exact Nat.le_of_eq h.1
  | fault => exact h.elim

/-- A step of a task keeps the invariant. -/
theorem Invariant.stepTask (hP : P.Sound Local Post) {s s' : State S W R E O} {i : ℕ}
    (h : Invariant P Local Post s) (hstep : P.stepTask s i = some s') :
    Invariant P Local Post s' := by
  unfold ForkJoin.stepTask at hstep
  split at hstep
  · cases hstep
  · rename_i w hi _
    obtain ⟨shared', out, hwork, hout, hkeep⟩ := hP.step i s.shared w (h.tasks i _ hi)
    rw [hwork] at hstep
    have hset : ∀ task, Task.Meets (Local i) (Post i) shared' task →
        Invariant P Local Post ⟨shared', s.tasks.set i task, s.main⟩ := by
      intro task htask
      refine ⟨fun j task' hj => ?_, h.main.stepTask hi h.main.length_le hkeep⟩
      rw [List.getElem?_set] at hj
      by_cases hij : i = j
      · rw [if_pos hij] at hj
        split at hj
        · cases hj
          exact hij ▸ htask
        · cases hj
      · rw [if_neg hij] at hj
        exact hkeep j task' (Ne.symm hij) (h.tasks j task' hj)
    cases out with
    | inl w' =>
      cases hstep
      exact hset (.running w') hout
    | inr r =>
      cases hstep
      exact hset (.ended r) hout
  · cases hstep

/-- The tasks when the forking thread has created one more. -/
theorem Invariant.launch {s : State S W R E O} {w : W} {todo : List W}
    (h : Invariant P Local Post s) (hmain : s.main = .launch (w :: todo)) :
    Invariant P Local Post { s with tasks := s.tasks ++ [.running w], main := .launch todo } := by
  have hinv := h.main
  rw [hmain] at hinv
  obtain ⟨hcount, htodo, hown⟩ := hinv
  constructor
  · intro i task hi
    rcases Nat.lt_trichotomy i s.tasks.length with hlt | rfl | hgt
    · rw [List.getElem?_append_left hlt] at hi
      exact h.tasks i task hi
    · rw [List.getElem?_concat_length] at hi
      cases hi
      exact htodo 0 w rfl
    · rw [List.getElem?_eq_none (by simp; omega)] at hi
      cases hi
  · refine ⟨by simp only [List.length_append, List.length_cons, List.length_nil] at hcount ⊢; omega,
      fun j v hj => ?_, hown⟩
    have hlocal := htodo (j + 1) v hj
    rwa [List.length_append, List.length_singleton, Nat.add_assoc, Nat.add_comm 1 j]

/-- A step of the program's own part keeps the invariant. -/
theorem Invariant.stepOwn (hP : P.Sound Local Post) {s s' : State S W R E O} {w : W}
    (h : Invariant P Local Post s) (hmain : s.main = .own w) (hstep : P.stepMain s = some s') :
    Invariant P Local Post s' := by
  have hinv := h.main
  rw [hmain] at hinv
  obtain ⟨hcount, hlocal⟩ := hinv
  obtain ⟨shared', out, hwork, hout, hkeep⟩ := hP.step _ s.shared w hlocal
  -- the program's own part has the number after the last thread
  have htasks : ∀ i task, s.tasks[i]? = some task →
      Task.Meets (Local i) (Post i) shared' task := by
    intro i task hi
    obtain ⟨hlt, -⟩ := List.getElem?_eq_some_iff.mp hi
    exact hkeep i task (by omega) (h.tasks i task hi)
  rw [stepMain, hmain] at hstep
  simp only [hwork] at hstep
  match out with
  | .inl w' =>
    cases hstep
    exact ⟨htasks, hcount, hout⟩
  | .inr (.ok last) =>
    cases hstep
    exact ⟨htasks, hcount, hout, [], s.tasks, rfl, rfl, rfl⟩
  | .inr (.error e) =>
    cases hstep
    exact ⟨htasks, hcount, ⟨.error e, hout, .own e rfl⟩, [], s.tasks, rfl, by simp [AllEnded], rfl⟩

/-- Taking a result keeps the invariant. -/
theorem Invariant.stepGet {s s' : State S W R E O} {i : ℕ} {last : R} {acc : O}
    (h : Invariant P Local Post s) (hmain : s.main = .get i last acc)
    (hstep : P.stepMain s = some s') : Invariant P Local Post s' := by
  have hinv := h.main
  rw [hmain] at hinv
  obtain ⟨hcount, hpost, rs, rest, rfl, htasks, rfl⟩ := hinv
  have hlen : (rs.map fun r => (.ended (.ok r) : Task W R E)).length = rs.length :=
    List.length_map _
  have hhead : s.tasks[rs.length]? = rest[0]? := by
    rw [htasks, List.getElem?_append_right (Nat.le_of_eq hlen), hlen, Nat.sub_self]
  rw [stepMain, hmain] at hstep
  simp only [hhead] at hstep
  match rest with
  | [] =>
    cases hstep
    rw [List.append_nil] at htasks
    exact ⟨h.tasks, hcount, ⟨.ok last, hpost, .all last rs rfl htasks⟩, [], s.tasks, rfl,
      by simp [AllEnded], rfl⟩
  | .running w :: rest => cases hstep -- `get` waits
  | .ended (.ok r) :: rest =>
    cases hstep
    refine ⟨h.tasks, hcount, hpost, rs ++ [r], rest, by simp, ?_, by simp⟩
    rw [htasks, List.map_append, List.map_singleton, ← List.append_cons]
  | .ended (.error e) :: rest =>
    cases hstep
    exact ⟨h.tasks, hcount, ⟨.ok last, hpost, .worker last rs e rest rfl htasks⟩, [], s.tasks, rfl,
      by simp [AllEnded], rfl⟩

/-- Joining a thread keeps the invariant. -/
theorem Invariant.stepLeave {s s' : State S W R E O} {i : ℕ} {outcome : Except E O}
    (h : Invariant P Local Post s) (hmain : s.main = .leave i outcome)
    (hstep : P.stepMain s = some s') : Invariant P Local Post s' := by
  have hinv := h.main
  rw [hmain] at hinv
  obtain ⟨hcount, hout, before, rest, rfl, hended, htasks⟩ := hinv
  have hhead : s.tasks[before.length]? = rest[0]? := by
    rw [htasks, List.getElem?_append_right (Nat.le_refl _), Nat.sub_self]
  rw [stepMain, hmain] at hstep
  simp only [hhead] at hstep
  match rest with
  | [] =>
    cases hstep
    rw [List.append_nil] at htasks
    exact ⟨h.tasks, hcount, hout, htasks ▸ hended⟩
  | .running w :: rest => cases hstep
  | .ended r :: rest =>
    cases hstep
    exact ⟨h.tasks, hcount, hout, before ++ [.ended r], rest, by simp,
      hended.append (allEnded_singleton r), by rw [htasks, List.append_cons]⟩

/-- A step of the forking thread keeps the invariant. -/
theorem Invariant.stepMain (hP : P.Sound Local Post) {s s' : State S W R E O}
    (h : Invariant P Local Post s) (hstep : P.stepMain s = some s') :
    Invariant P Local Post s' := by
  cases hmain : s.main with
  | launch todo =>
    cases todo with
    | nil =>
      have hinv := h.main
      rw [hmain] at hinv
      obtain ⟨hcount, -, hown⟩ := hinv
      rw [ForkJoin.stepMain, hmain] at hstep
      cases hstep
      exact ⟨h.tasks, hcount, hown⟩
    | cons w todo =>
      have hnext := h.launch hmain
      rw [ForkJoin.stepMain, hmain] at hstep
      cases hstep
      exact hnext
  | own w => exact h.stepOwn hP hmain hstep
  | get i last acc => exact h.stepGet hmain hstep
  | leave i outcome => exact h.stepLeave hmain hstep
  | done outcome =>
    rw [ForkJoin.stepMain, hmain] at hstep
    cases hstep
  | fault =>
    rw [ForkJoin.stepMain, hmain] at hstep
    cases hstep

theorem Invariant.step (hP : P.Sound Local Post) {shared : S} {main : Main W R E O}
    {s s' : State S W R E O} {l : Label} (h : Invariant P Local Post s)
    (hstep : (P.machine shared main).step s l = some s') : Invariant P Local Post s' := by
  cases l with
  | main => exact h.stepMain hP hstep
  | task i => exact h.stepTask hP hstep

theorem Invariant.init {shared : S}
    (hworkers : ∀ i w, P.workers[i]? = some w → Local i shared w)
    (hown : Local P.workers.length shared P.own) :
    Invariant P Local Post (P.program shared).init := by
  constructor
  · intro i task hi
    cases hi
  · refine ⟨Nat.zero_add _, fun j w hj => ?_, hown⟩
    show Local (0 + j) shared w
    rw [Nat.zero_add]
    exact hworkers j w hj

/-- **The rule.**  If each part begins with its local predicate, the invariant holds in every
state, whatever the order of the steps. -/
theorem Sound.invariant (hP : P.Sound Local Post) {shared : S}
    (hworkers : ∀ i w, P.workers[i]? = some w → Local i shared w)
    (hown : Local P.workers.length shared P.own) {s : State S W R E O}
    (h : (P.program shared).Reachable s) : Invariant P Local Post s :=
  h.invariant (Invariant.init hworkers hown) fun _ _ _ hinv hstep => hinv.step hP hstep

/-- **What the program leaves with.**  All threads have ended, the parts' ends satisfy their
postconditions, and the outcome is the one for these ends. -/
theorem Invariant.of_done {s : State S W R E O} {o : Except E O} (h : Invariant P Local Post s)
    (hdone : s.main = .done o) :
    ∃ (own : Except E R) (ends : List (Except E R)), s.tasks = ends.map .ended ∧
      ends.length = P.workers.length ∧ P.Outcome own s.tasks o ∧
      Post P.workers.length s.shared own ∧ ∀ i r, ends[i]? = some r → Post i s.shared r := by
  have hinv := h.main
  rw [hdone] at hinv
  obtain ⟨hcount, ⟨own, hpost, hout⟩, hended⟩ := hinv
  obtain ⟨ends, hends⟩ : ∃ ends : List (Except E R), s.tasks = ends.map .ended := by
    generalize s.tasks = tasks at hended
    clear hcount hout
    induction tasks with
    | nil => exact ⟨[], rfl⟩
    | cons task tasks ih =>
      obtain ⟨r, rfl⟩ := hended task List.mem_cons_self
      obtain ⟨ends, rfl⟩ := ih fun task' hmem => hended task' (List.mem_cons_of_mem _ hmem)
      exact ⟨r :: ends, rfl⟩
  refine ⟨own, ends, hends, by rw [← hcount, hends, List.length_map], hout, hpost, fun i r hi => ?_⟩
  exact h.tasks i (.ended r) (by rw [hends, List.getElem?_map, hi, Option.map_some])

/-- No step has had undefined behaviour. -/
theorem Invariant.ne_fault {s : State S W R E O} (h : Invariant P Local Post s) :
    s.main ≠ .fault := by
  intro hfault
  have hinv := h.main
  rw [hfault] at hinv
  exact hinv

/-- A program that has left at once takes no steps. -/
theorem eq_of_done {shared : S} {outcome : Except E O} {s : State S W R E O}
    (h : (P.machine shared (.done outcome)).Reachable s) : s = ⟨shared, [], .done outcome⟩ := by
  apply h.invariant (P := fun s => s = ⟨shared, [], .done outcome⟩) rfl
  rintro s l s' rfl hstep
  cases l with
  | main => cases hstep
  | task i => cases hstep

theorem terminates_of_done (shared : S) (outcome : Except E O) :
    (P.machine shared (.done outcome)).Terminates fun s => ∃ o, s.main = .done o := by
  apply Machine.terminates_of_decreasing (P := fun s => s = ⟨shared, [], .done outcome⟩) rfl
    fun _ => 0
  · rintro s l s' rfl hstep
    cases l with
    | main => cases hstep
    | task i => cases hstep
  · rintro s rfl hdone
    exact absurd ⟨outcome, rfl⟩ hdone

/-! ## Termination -/

section Termination
variable (rank : W → ℕ)

/-- The steps that a task has left at most. -/
def Task.size : Task W R E → ℕ
  | .running w => rank w + 1
  | .ended _ => 0

variable (P) in
def Main.size : Main W R E O → ℕ
  | .launch todo => Machine.total (fun w => rank w + 2) todo + rank P.own + 2 * P.workers.length + 6
  | .own w => rank w + 2 * P.workers.length + 5
  | .get i _ _ => P.workers.length - i + P.workers.length + 3
  | .leave i _ => P.workers.length - i + 2
  | .done _ | .fault => 0

variable (P) in
/-- The steps that are left at most. -/
def State.size (s : State S W R E O) : ℕ :=
  Machine.total (Task.size rank) s.tasks + s.main.size P rank

variable {rank} (hrank : ∀ k shared w shared' w', Local k shared w →
  P.work shared w = some (shared', .inl w') → rank w' < rank w)

include hrank

/-- A step of a task leaves less to do. -/
theorem size_stepTask (hP : P.Sound Local Post) {s s' : State S W R E O} {i : ℕ}
    (h : Invariant P Local Post s) (hstep : P.stepTask s i = some s') :
    s'.size P rank < s.size P rank := by
  unfold ForkJoin.stepTask at hstep
  split at hstep
  · cases hstep
  · rename_i w hi _
    have hlocal : Local i s.shared w := h.tasks i _ hi
    obtain ⟨shared', out, hwork, -, -⟩ := hP.step i s.shared w hlocal
    rw [hwork] at hstep
    cases out with
    | inl w' =>
      cases hstep
      have hset := Machine.total_set (Task.size rank) hi (.running w')
      have hlt := hrank i s.shared w shared' w' hlocal hwork
      simp only [State.size, Task.size] at hset ⊢
      omega
    | inr r =>
      cases hstep
      have hset := Machine.total_set (Task.size rank) hi (.ended r)
      simp only [State.size, Task.size] at hset ⊢
      omega
  · cases hstep

/-- A step of the forking thread leaves less to do. -/
theorem size_stepMain (hP : P.Sound Local Post) {s s' : State S W R E O}
    (h : Invariant P Local Post s) (hstep : P.stepMain s = some s') :
    s'.size P rank < s.size P rank := by
  have hinv := h.main
  have hindex : ∀ {i task}, s.tasks[i]? = some task → i < s.tasks.length := by
    intro i task hi
    exact (List.getElem?_eq_some_iff.mp hi).1
  rw [ForkJoin.stepMain] at hstep
  cases hmain : s.main with
  | launch todo =>
    rw [hmain] at hstep
    cases todo with
    | nil =>
      cases hstep
      simp only [State.size, hmain, Main.size, Machine.total]
      omega
    | cons w todo =>
      cases hstep
      simp only [State.size, hmain, Main.size, Machine.total_append, Machine.total, Task.size]
      omega
  | own w =>
    rw [hmain] at hinv hstep
    obtain ⟨-, hlocal⟩ := hinv
    obtain ⟨shared', out, hwork, -, -⟩ := hP.step _ s.shared w hlocal
    simp only [hwork] at hstep
    rcases out with w' | (e | last)
    · cases hstep
      have hlt := hrank _ s.shared w shared' w' hlocal hwork
      simp only [State.size, hmain, Main.size]
      omega
    · cases hstep
      simp only [State.size, hmain, Main.size]
      omega
    · cases hstep
      simp only [State.size, hmain, Main.size]
      omega
  | get i last acc =>
    rw [hmain] at hinv hstep
    have hcount := hinv.1
    simp only at hstep
    split at hstep
    · cases hstep
      simp only [State.size, hmain, Main.size]
      omega
    · cases hstep
    · rename_i hi
      cases hstep
      have := hindex hi
      simp only [State.size, hmain, Main.size]
      omega
    · cases hstep
      simp only [State.size, hmain, Main.size]
      omega
  | leave i outcome =>
    rw [hmain] at hinv hstep
    have hcount := hinv.1
    simp only at hstep
    split at hstep
    · cases hstep
      simp only [State.size, hmain, Main.size]
      omega
    · cases hstep -- `join` waits
    · rename_i hi
      cases hstep
      have := hindex hi
      simp only [State.size, hmain, Main.size]
      omega
  | done outcome =>
    rw [hmain] at hstep
    cases hstep
  | fault =>
    rw [hmain] at hstep
    cases hstep

end Termination

/-- A running task can take a step. -/
theorem Invariant.exists_stepTask (hP : P.Sound Local Post) {s : State S W R E O} {i : ℕ} {w : W}
    (h : Invariant P Local Post s) (hi : s.tasks[i]? = some (.running w)) :
    ∃ s', P.stepTask s i = some s' := by
  obtain ⟨shared', out, hwork, -, -⟩ := hP.step i s.shared w (h.tasks i _ hi)
  unfold ForkJoin.stepTask
  split
  · exact absurd ‹_› h.ne_fault
  · rename_i v hv _
    cases hi.symm.trans hv
    rw [hwork]
    cases out with
    | inl w' => exact ⟨_, rfl⟩
    | inr r => exact ⟨_, rfl⟩
  · rename_i hnone
    exact absurd hi (hnone w)

/-- The forking thread has left, can take a step, or waits for a thread that is running. -/
theorem Invariant.main_cases (hP : P.Sound Local Post) {s : State S W R E O}
    (h : Invariant P Local Post s) :
    (∃ o, s.main = .done o) ∨ (∃ s', P.stepMain s = some s') ∨
      ∃ (i : ℕ) (w : W), s.tasks[i]? = some (.running w) := by
  have hinv := h.main
  rw [ForkJoin.stepMain]
  cases hmain : s.main with
  | launch todo =>
    refine Or.inr (Or.inl ?_)
    cases todo with
    | nil => exact ⟨_, rfl⟩
    | cons w todo => exact ⟨_, rfl⟩
  | own w =>
    rw [hmain] at hinv
    obtain ⟨shared', out, hwork, -, -⟩ := hP.step _ s.shared w hinv.2
    refine Or.inr (Or.inl ?_)
    simp only [hwork]
    match out with
    | .inl w' => exact ⟨_, rfl⟩
    | .inr (.ok last) => exact ⟨_, rfl⟩
    | .inr (.error e) => exact ⟨_, rfl⟩
  | get i last acc =>
    refine Or.inr ?_
    simp only
    cases hi : s.tasks[i]? with
    | none => exact Or.inl ⟨_, rfl⟩
    | some task =>
      match task with
      | .running w => exact Or.inr ⟨i, w, hi⟩
      | .ended (.ok r) => exact Or.inl ⟨_, rfl⟩
      | .ended (.error e) => exact Or.inl ⟨_, rfl⟩
  | leave i outcome =>
    refine Or.inr ?_
    simp only
    cases hi : s.tasks[i]? with
    | none => exact Or.inl ⟨_, rfl⟩
    | some task =>
      cases task with
      | running w => exact Or.inr ⟨i, w, hi⟩
      | ended r => exact Or.inl ⟨_, rfl⟩
  | done outcome => exact Or.inl ⟨outcome, rfl⟩
  | fault =>
    rw [hmain] at hinv
    exact hinv.elim

/-- **The program never gets stuck**: until it has left some step can be taken. -/
theorem Invariant.progress (hP : P.Sound Local Post) {shared : S} {s : State S W R E O}
    (h : Invariant P Local Post s) (hdone : ¬ ∃ o, s.main = .done o) :
    ∃ l s', (P.program shared).step s l = some s' := by
  rcases h.main_cases hP with hleft | ⟨s', hstep⟩ | ⟨i, w, hi⟩
  · exact absurd hleft hdone
  · exact ⟨.main, s', hstep⟩
  · obtain ⟨s', hstep⟩ := h.exists_stepTask hP hi
    exact ⟨.task i, s', hstep⟩

/-- **The program terminates**, and leaves, if the steps of its parts do not go on for ever. -/
theorem Sound.terminates (hP : P.Sound Local Post) {shared : S} {rank : W → ℕ}
    (hrank : ∀ k shared w shared' w', Local k shared w →
      P.work shared w = some (shared', .inl w') → rank w' < rank w)
    (hworkers : ∀ i w, P.workers[i]? = some w → Local i shared w)
    (hown : Local P.workers.length shared P.own) :
    (P.program shared).Terminates fun s => ∃ o, s.main = .done o := by
  have hinit : Invariant P Local Post (P.program shared).init := Invariant.init hworkers hown
  apply Machine.terminates_of_decreasing hinit (State.size P rank)
  · intro s l s' hinv hstep
    refine ⟨hinv.step hP hstep, ?_⟩
    cases l with
    | main => exact size_stepMain hrank hP hinv hstep
    | task i => exact size_stepTask hrank hP hinv hstep
  · intro s hinv hdone
    exact hinv.progress hP hdone

end ForkJoin
end Sundries
