import DagRider.Model.Vertex
import Mathlib.Logic.Relation

set_option relaxedAutoImplicit false
set_option autoImplicit false

/-!
# The drain loops

The two loops at the head of a pass of `Consensus::run`, one evaluation of a loop condition at a
time, with the channels of `src/consensus/communication.hpp`. `receive` returns an optional that
is never empty: on an empty queue it waits. So the first loop, which ends on an empty optional,
never does, and the blocks are never asked for.

## Main definitions

* `DagRider.Channel.receive` — `Receiver::receive`.
* `DagRider.Drain`, `DagRider.Drain.step` — the two loops.
* `DagRider.Drain.Drains` — both loops end with everything moved.

## Main results

* `DagRider.Drain.reaches_iff` — the states the loops go through.
* `DagRider.Drain.not_drains` — they never end.
-/

namespace DagRider

namespace Channel

/-- `Receiver::receive` on a queue: the optional it returns and the queue it leaves; `none` while
it waits on the condition variable, until another thread sends something. -/
def receive {α : Type} : List α → Option (Option α × List α)
  | [] => none
  | item :: queue => some (some item, queue)

end Channel

/-- Where a pass is. -/
inductive DrainPhase where
  /-- At the condition of the loop over `vertexReceiver`. -/
  | vertices
  /-- At the condition of the loop over `blocksReceiver`. -/
  | blocks
  /-- At the admission loop. -/
  | admission
deriving DecidableEq

/-- The two queues, what was moved out of them, and where the pass is. -/
structure Drain where
  vertexReceiver : List Vertex
  blocksReceiver : List Block
  buffer : List Vertex
  blocksToPropose : List Block
  phase : DrainPhase

namespace Drain

/-- A pass starts, with an empty buffer. -/
def start (vertices : List Vertex) (blocks blocksToPropose : List Block) : Drain :=
  ⟨vertices, blocks, [], blocksToPropose, .vertices⟩

/-- Evaluate a loop condition, and with an item the body of the loop; `none` while `receive`
waits, and at the admission loop. Nobody sends meanwhile. -/
def step (s : Drain) : Option Drain :=
  match s.phase with
  | .vertices =>
    match Channel.receive s.vertexReceiver with
    | none => none
    | some (some vertex, queue) =>
      some { s with vertexReceiver := queue, buffer := s.buffer ++ [vertex] }
    | some (none, queue) => some { s with vertexReceiver := queue, phase := .blocks }
  | .blocks =>
    match Channel.receive s.blocksReceiver with
    | none => none
    | some (some block, queue) =>
      some { s with blocksReceiver := queue, blocksToPropose := s.blocksToPropose ++ [block] }
    | some (none, queue) => some { s with blocksReceiver := queue, phase := .admission }
  | .admission => none

/-- Any number of steps. -/
def Reaches : Drain → Drain → Prop := Relation.ReflTransGen fun s s' => s.step = some s'

/-- From these queues the loops end, with exactly their vertices and blocks moved, in order. -/
def Drains (vertices : List Vertex) (blocks blocksToPropose : List Block) : Prop :=
  (start vertices blocks blocksToPropose).Reaches
    ⟨[], [], vertices, blocksToPropose ++ blocks, .admission⟩

variable {s t : Drain}

/-- In the first loop a step moves one vertex. -/
lemma step_vertices {vertices buffer : List Vertex} {blocks blocksToPropose : List Block} :
    step ⟨vertices, blocks, buffer, blocksToPropose, .vertices⟩ = some t ↔
      ∃ vertex queue, vertices = vertex :: queue ∧
        t = ⟨queue, blocks, buffer ++ [vertex], blocksToPropose, .vertices⟩ := by
  cases vertices with
  | nil => simp [step, Channel.receive]
  | cons vertex queue => simp [step, Channel.receive, eq_comm]

/-- **The states of a pass**: some vertices were moved, the others are still in their queue, the
blocks are where they were, and the first loop goes on. -/
theorem reaches_iff {vertices : List Vertex} {blocks blocksToPropose : List Block} :
    (start vertices blocks blocksToPropose).Reaches t ↔
      ∃ moved queue, vertices = moved ++ queue ∧
        t = ⟨queue, blocks, moved, blocksToPropose, .vertices⟩ := by
  constructor
  · intro h
    induction h with
    | refl => exact ⟨[], vertices, rfl, rfl⟩
    | tail _ hstep ih =>
      obtain ⟨moved, queue, rfl, rfl⟩ := ih
      obtain ⟨vertex, rest, rfl, rfl⟩ := step_vertices.mp hstep
      exact ⟨moved ++ [vertex], rest, by simp, rfl⟩
  · rintro ⟨moved, queue, rfl, rfl⟩
    induction moved using List.reverseRecOn generalizing queue with
    | nil => exact Relation.ReflTransGen.refl
    | append_singleton moved vertex ih =>
      have hbefore := ih (vertex :: queue)
      rw [List.append_assoc, List.singleton_append]
      exact hbefore.tail (step_vertices.mpr ⟨vertex, queue, rfl, rfl⟩)

/-- **The drain loops never end.** For all queues at the start of a pass, the loops do not move
everything and end; when all vertices have been moved, the first loop waits, with the blocks still
in their queue.

**Proof sketch.** In every state that is reached the first loop goes on (`reaches_iff`), because
the optional that would end it is never returned. -/
theorem not_drains (vertices : List Vertex) (blocks blocksToPropose : List Block) :
    ¬ Drains vertices blocks blocksToPropose ∧
      (start vertices blocks blocksToPropose).Reaches
        ⟨[], blocks, vertices, blocksToPropose, .vertices⟩ ∧
      step ⟨[], blocks, vertices, blocksToPropose, .vertices⟩ = none := by
  refine ⟨fun h => ?_, reaches_iff.mpr ⟨vertices, [], (List.append_nil _).symm, rfl⟩, rfl⟩
  obtain ⟨moved, queue, -, heq⟩ := reaches_iff.mp h
  exact absurd (congrArg phase heq) (by simp)

/-- The loops do not end even when there is nothing to move. -/
theorem not_drains_empty : ¬ Drains [] [] [] := by
  intro h
  obtain ⟨moved, queue, -, heq⟩ := reaches_iff.mp h
  exact absurd (congrArg phase heq) (by simp)

end Drain

end DagRider
