import DagRider.Channel.Locking
import DagRider.Lib.Simulation

set_option relaxedAutoImplicit false
set_option autoImplicit false

/-!
# A channel is a queue

Behind their mutex the threads see a queue whose operations take effect at once: every run of a
channel, with the calls and returns of its threads in the order in which they happen, is a run of
`AtomicQueue` in which each `send` takes effect at its `push` and each `receive` at its `pop`. So
nothing is lost, duplicated or overtaken.

## Main definitions

* `DagRider.Channel.inHand` — the item that was taken and not yet returned.

## Main results

* `DagRider.Channel.simulates` — each step is matched by the queue.
* `DagRider.Channel.Step.flow` — what a step moves from the senders to the receivers.
* `DagRider.Channel.linearizable` — the two together, over whole runs.
-/

namespace DagRider

open Function

/-! ## The view of a step -/

namespace AtomicQueue

variable {θ α : Type} [DecidableEq θ] {s : AtomicQueue θ α} {t : θ} {st st' : Status α}

/-- A thread that stays where it is. -/
lemma goto_self (h : s.status t = st) : s.goto t st = s := by
  unfold goto
  rw [← h, update_eq_self]

end AtomicQueue

namespace Channel

variable {θ α : Type} [DecidableEq θ]

/-- When a thread moves, the queue sees the status of its new place. -/
lemma view_goto {s : Channel θ α} {t : θ} {p : Place α} :
    (s.goto t p).view = s.view.goto t p.status := by
  unfold goto view AtomicQueue.goto
  congr 1
  exact comp_update Place.status s.place t p

/-- When a thread moves and the queue changes. -/
lemma view_goto_queue {s : Channel θ α} {t : θ} {p : Place α} {q : List α} :
    ({ s.goto t p with queue := q } : Channel θ α).view =
      { s.view.goto t p.status with queue := q } :=
  congrArg (fun v : AtomicQueue θ α => { v with queue := q }) view_goto

/-- A thread moves and its status stays. -/
lemma view_goto_of_eq {s : Channel θ α} {t : θ} {p : Place α}
    (h : p.status = (s.place t).status) : (s.goto t p).view = s.view := by
  rw [view_goto]
  exact AtomicQueue.goto_self h.symm

variable {s s' : Channel θ α} {e : Event θ α}

/-- **Each step of a channel is matched by the queue**: most are not seen, and the others are the
calls, the effects and the returns.

**Proof sketch.** By the table of steps. A step between two places of the same status is not
seen. At a `pop` the front of the queue is still the item that was read (`Locked.pop`), so this is
what `Channel.receive` takes there. -/
theorem Step.follows [DecidableEq α] (hs : s.Locked) (h : Step s e s') :
    Run.exec AtomicQueue.step s.view (s.shows e) = some s'.view := by
  cases h with
  | @receive t hp =>
    have hidle : s.view.status t = .idle := by simp [view, hp, Place.status]
    rw [view_goto]
    simp [shows, Run.exec, AtomicQueue.step, hidle, Place.status]
  | @send t item hp =>
    have hidle : s.view.status t = .idle := by simp [view, hp, Place.status]
    rw [view_goto]
    simp [shows, Run.exec, AtomicQueue.step, hidle, Place.status]
  | printContents hp | spurious hp =>
    rw [view_goto_of_eq (by rw [hp]; rfl)]
    rfl
  | lockReceive hp | lockCout hp | unlockCout hp | lockAgain hp | lockSend hp | unlockSend hp
  | lockPrint hp | unlockPrint hp | wait hp | goOn hp | front hp =>
    simp only [shows, hp, Run.exec_nil]
    exact congrArg some (view_goto_of_eq (by rw [hp]; rfl)).symm
  | @pop t item hp =>
    have hhead := hs.pop t item hp
    obtain ⟨queue, hq⟩ : ∃ queue, s.queue = item :: queue := List.head?_eq_some_iff.mp hhead
    have hst : s.view.status t = .receiving := by simp [view, hp, Place.status]
    have hview : s.view.queue = item :: queue := hq
    rw [view_goto_queue, hq]
    simp [shows, hp, Run.exec, AtomicQueue.step, hst, hview, Channel.receive, Place.status]
  | @returned t item hp =>
    have hst : s.view.status t = .received item := by simp [view, hp, Place.status]
    have hview : (s.unlock t .outside).view = s.view.goto t .idle := by
      show (s.goto t .outside).view = _
      exact view_goto
    rw [hview]
    simp [shows, hp, Run.exec, AtomicQueue.step, hst]
  | @push t item hp =>
    have hst : s.view.status t = .sending item := by simp [view, hp, Place.status]
    have hview : s.view.queue = s.queue := rfl
    rw [view_goto_queue]
    simp [shows, hp, Run.exec, AtomicQueue.step, hst, hview, Place.status]
  | @wake t u hp hu =>
    have hst : s.view.status t = .sent := by simp [view, hp, Place.status]
    have hne : u ≠ t := fun heq => by simp [heq, hp] at hu
    have hu' : (s.goto t .outside).place u = .asleep := by simp [goto, hne, hu]
    rw [view_goto_of_eq (by rw [hu']; rfl), view_goto]
    simp [shows, Run.exec, AtomicQueue.step, hst, Place.status]
  | @nobody t hp =>
    have hst : s.view.status t = .sent := by simp [view, hp, Place.status]
    rw [view_goto]
    simp [shows, Run.exec, AtomicQueue.step, hst, Place.status]

/-- **A channel simulates the queue.** -/
theorem simulates [Fintype θ] [DecidableEq α] :
    Run.Simulates (step (θ := θ) (α := α)) AtomicQueue.step Locked view shows where
  keeps hs hstep := hs.step hstep
  follows hs hstep := (Step.of_step hstep).follows hs

/-! ## From the senders to the receivers -/

namespace Place

variable {α : Type}

/-- The item that was taken and not yet returned. -/
def item : Place α → List α
  | atReturn item => [item]
  | _ => []

end Place

/-- The item that the holder of `mutex_` took and has not yet returned. -/
def inHand (s : Channel θ α) : List α := (s.mutex.map fun t => (s.place t).item).getD []

/-- A thread moves and takes nothing. -/
lemma inHand_goto {t : θ} {p : Place α} (h : p.item = (s.place t).item) :
    (s.goto t p).inHand = s.inHand := by
  unfold inHand goto
  congr 2
  funext u
  by_cases hu : u = t
  · subst hu
    simpa using h
  · simp [hu]

/-- **What a step moves.** What is in hand, then in the queue, then put there by the step, is what
the step returns, then in hand, then in the queue.

**Proof sketch.** By the table of steps: `pop` moves the front of the queue, which is what was
read, into the hand of the holder of `mutex_`; the return empties the hand; every other step leaves
the hand as it is, or locks or unlocks with an empty hand. -/
theorem Step.flow (hs : s.Locked) (h : Step s e s') :
    s.inHand ++ s.queue ++ s.puts e = s.returns e ++ (s'.inHand ++ s'.queue) := by
  -- who is between lock and unlock is the holder, so the hand is the item of that place
  have hand : ∀ {t : θ} {p : Place α}, s.place t = p → p.holdsMutex = true →
      s.inHand = p.item := by
    intro t p hp hholds
    have hm : s.mutex = some t := (hs.mutex t).mp (by rw [hp]; exact hholds)
    simp [inHand, hm, hp]
  cases h with
  | @receive t hp | @send t item hp | @printContents t hp | @spurious t hp | @nobody t hp =>
    rw [inHand_goto (by rw [hp]; rfl)]
    simp [puts, returns, goto]
  | @lockReceive t hp hm | @lockAgain t hp hm | @lockSend t item hp hm | @lockPrint t hp hm =>
    simp [puts, returns, goto, hp, inHand, hm, Place.item]
  | @lockCout t hp | @unlockCout t hp | @goOn t hp | @front t item hp =>
    have hm : s.mutex = some t := (hs.mutex t).mp (by rw [hp]; rfl)
    rw [hand hp rfl]
    simp [puts, returns, hp, goto, inHand, hm, Place.item]
  | @wait t hp | @unlockSend t hp | @unlockPrint t hp =>
    rw [hand hp rfl]
    simp [puts, returns, hp, unlock, goto, inHand, Place.item]
  | @pop t item hp =>
    obtain ⟨queue, hq⟩ : ∃ queue, s.queue = item :: queue :=
      List.head?_eq_some_iff.mp (hs.pop t item hp)
    have hm : s.mutex = some t := (hs.mutex t).mp (by rw [hp]; rfl)
    rw [hand hp rfl]
    simp [puts, returns, hp, goto, inHand, hm, hq, Place.item]
  | @returned t item hp =>
    rw [hand hp rfl]
    simp [puts, returns, hp, unlock, goto, inHand, Place.item]
  | @push t item hp =>
    have hm : s.mutex = some t := (hs.mutex t).mp (by rw [hp]; rfl)
    rw [hand hp rfl]
    simp [puts, returns, hp, goto, inHand, hm, Place.item]
  | @wake t u hp hu =>
    have hne : u ≠ t := fun heq => by simp [heq, hp] at hu
    have hu' : (s.goto t .outside).place u = .asleep := by simp [goto, hne, hu]
    rw [inHand_goto (by rw [hu']; rfl), inHand_goto (by rw [hp]; rfl)]
    simp [puts, returns, goto]

/-- What was put so far has been returned, or is in hand, or in the queue, in this order. -/
lemma flow_of_exec [Fintype θ] {es : List (Event θ α)}
    (h : Run.exec step (init θ α) es = some s) :
    Run.trace step puts (init θ α) es =
      Run.trace step returns (init θ α) es ++ (s.inHand ++ s.queue) := by
  refine Run.history_induction (J := fun es s => Run.trace step puts (init θ α) es =
    Run.trace step returns (init θ α) es ++ (s.inHand ++ s.queue)) ?_ ?_ h
  · simp [Run.trace, init, inHand]
  · intro p t e u hp ih hu
    have hflow := (Step.of_step hu).flow (locked hp)
    rw [Run.trace_concat hp, Run.trace_concat hp, ih]
    simp only [List.append_assoc] at hflow ⊢
    rw [hflow]

omit [DecidableEq θ] in
/-- At most one item is in hand. -/
lemma length_inHand_le (s : Channel θ α) : s.inHand.length ≤ 1 := by
  unfold inHand
  cases s.mutex with
  | none => simp
  | some t => cases h : s.place t <;> simp [h, Place.item]

/-- **A channel is a queue.** In every run of any number of threads, with any interleaving of
their locks, queue accesses, waits and notifications: the calls and returns of the threads, with
each operation taking effect at once between its call and its return, are a run of a queue that
ends in what the threads see of the channel; and the items that were put, in the order of the
puts, are those that were returned, in the order of the returns, then at most one that is about to
be returned, then the queue.

**Proof sketch.** The first part is the simulation (`simulates`), whose invariant is what the
locks protect. For the second, each step moves items from the queue into the hand of the holder of
`mutex_` and from there to its caller, and changes no order (`Step.flow`). -/
theorem linearizable [Fintype θ] [DecidableEq α] {es : List (Event θ α)}
    (h : Run.exec step (init θ α) es = some s) :
    Run.exec AtomicQueue.step (AtomicQueue.init θ α) (Run.trace step shows (init θ α) es) =
        some s.view ∧
      ∃ inHand : List α, inHand.length ≤ 1 ∧
        Run.trace step puts (init θ α) es =
          Run.trace step returns (init θ α) es ++ (inHand ++ s.queue) :=
  ⟨simulates.exec locked_init h, s.inHand, s.length_inHand_le, flow_of_exec h⟩

/-- A receiver (`true`) goes to sleep on the empty queue, a sender (`false`) sends an item and
wakes it, and the receiver returns it. -/
def handover : List (Event Bool ℕ) :=
  .receive true :: List.replicate 4 (.resume true) ++
    (.send false 7 :: List.replicate 3 (.resume false)) ++
    .notify false (some true) :: List.replicate 5 (.resume true)

/-- In a handover the item is put and returned, as by the queue. -/
theorem linearizable_handover : ∃ s, Run.exec step (init Bool ℕ) handover = some s ∧
    Run.trace step returns (init Bool ℕ) handover = [7] ∧
    Run.exec AtomicQueue.step (AtomicQueue.init Bool ℕ)
      (Run.trace step shows (init Bool ℕ) handover) = some s.view := by
  obtain ⟨s, h, -⟩ : ∃ s, Run.exec step (init Bool ℕ) handover = some s ∧
      s.queue.isEmpty = true := Run.exists_exec_of_any (by decide +kernel)
  exact ⟨s, h, by decide +kernel, (linearizable h).1⟩

end Channel

end DagRider
