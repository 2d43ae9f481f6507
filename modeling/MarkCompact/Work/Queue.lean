/-
MarkCompact/Work/Queue.lean

A batch of tasks for one worker.

A queue counts the tasks that are not finished. One worker takes them in the order in
which they were put in, whether it takes them from the common queue or from one of its
own.

Main result: `isEmpty_of_run` (a run that does not fail leaves no task).
-/

namespace MarkCompact

/-- Tasks that are not finished, the first one put in first. -/
structure TaskQueue (α : Type) where
  tasks : List α
  deriving Repr

namespace TaskQueue

variable {α σ ε : Type}

/-- The tasks of a list, in its order. -/
def ofList (tasks : List α) : TaskQueue α := ⟨tasks⟩

/-- Puts a task in. -/
def push (q : TaskQueue α) (task : α) : TaskQueue α := ⟨q.tasks ++ [task]⟩

/-- The number of tasks that are not finished. -/
def pending (q : TaskQueue α) : Nat := q.tasks.length

def isEmpty (q : TaskQueue α) : Bool := q.pending == 0

/-- Finishes all tasks, in order: the state after the last one, and the empty queue. -/
def run (step : σ → α → Except ε σ) (s : σ) (q : TaskQueue α) :
    Except ε (σ × TaskQueue α) :=
  (q.tasks.foldlM step s).map fun s => (s, ⟨[]⟩)

theorem pending_push (q : TaskQueue α) (task : α) : (q.push task).pending = q.pending + 1 := by
  simp [pending, push]

/-- A run that does not fail leaves no task. -/
theorem isEmpty_of_run {step : σ → α → Except ε σ} {s s' : σ} {q q' : TaskQueue α}
    (h : q.run step s = .ok (s', q')) : q'.isEmpty := by
  unfold run at h
  cases hf : q.tasks.foldlM step s with
  | error e => simp [hf, Except.map] at h
  | ok s =>
    simp only [hf, Except.map, Except.ok.injEq, Prod.mk.injEq] at h
    rw [← h.2]
    rfl

end TaskQueue

end MarkCompact
