import DagRider.Model.Channel
import DagRider.Lib.Threads

set_option relaxedAutoImplicit false
set_option autoImplicit false

/-!
# The locks of a channel

What a step of a channel can do, said once, and what its two mutexes protect: at most one thread
is between a lock of `mutex_` and its unlock, so what `receive` read at the front of the queue is
what it pops, and the queue is not empty there.

## Main definitions

* `DagRider.Channel.Step` — the table of all steps.
* `DagRider.Channel.Locked` — the invariant of the locks.

## Main results

* `DagRider.Channel.Step.of_step` — the table is complete.
* `DagRider.Channel.locked` — the invariant holds in every reachable state.
-/

namespace DagRider

namespace Channel

variable {θ α : Type}

section Table

variable [DecidableEq θ]

/-! ## What a step can do -/

/-- The steps, by the place of the thread. -/
inductive Step (s : Channel θ α) : Event θ α → Channel θ α → Prop
  | receive {t : θ} : s.place t = .outside → Step s (.receive t) (s.goto t .atReceive)
  | send {t : θ} {item : α} :
    s.place t = .outside → Step s (.send t item) (s.goto t (.atSend item))
  | printContents {t : θ} :
    s.place t = .outside → Step s (.printContents t) (s.goto t .atPrintLock)
  | lockReceive {t : θ} : s.place t = .atReceive → s.mutex = none →
    Step s (.resume t) { s.goto t .atCoutLock with mutex := some t }
  | lockCout {t : θ} : s.place t = .atCoutLock → s.coutMutex = none →
    Step s (.resume t) { s.goto t .atCoutUnlock with coutMutex := some t }
  | unlockCout {t : θ} : s.place t = .atCoutUnlock →
    Step s (.resume t) { s.goto t .atPredicate with coutMutex := none }
  | wait {t : θ} : s.place t = .atPredicate → s.queue = [] →
    Step s (.resume t) (s.unlock t .asleep)
  | goOn {t : θ} : s.place t = .atPredicate → s.queue ≠ [] →
    Step s (.resume t) (s.goto t .atFront)
  | lockAgain {t : θ} : s.place t = .woken → s.mutex = none →
    Step s (.resume t) { s.goto t .atPredicate with mutex := some t }
  | front {t : θ} {item : α} : s.place t = .atFront → s.queue.head? = some item →
    Step s (.resume t) (s.goto t (.atPop item))
  | pop {t : θ} {item : α} : s.place t = .atPop item →
    Step s (.resume t) { s.goto t (.atReturn item) with queue := s.queue.tail }
  | returned {t : θ} {item : α} : s.place t = .atReturn item →
    Step s (.resume t) (s.unlock t .outside)
  | lockSend {t : θ} {item : α} : s.place t = .atSend item → s.mutex = none →
    Step s (.resume t) { s.goto t (.atPush item) with mutex := some t }
  | push {t : θ} {item : α} : s.place t = .atPush item →
    Step s (.resume t) { s.goto t .atUnlock with queue := s.queue ++ [item] }
  | unlockSend {t : θ} : s.place t = .atUnlock → Step s (.resume t) (s.unlock t .atNotify)
  | lockPrint {t : θ} : s.place t = .atPrintLock → s.mutex = none →
    Step s (.resume t) { s.goto t .atPrint with mutex := some t }
  | unlockPrint {t : θ} : s.place t = .atPrint → Step s (.resume t) (s.unlock t .outside)
  | wake {t u : θ} : s.place t = .atNotify → s.place u = .asleep →
    Step s (.notify t (some u)) ((s.goto t .outside).goto u .woken)
  | nobody {t : θ} : s.place t = .atNotify → (∀ u, s.place u ≠ .asleep) →
    Step s (.notify t none) (s.goto t .outside)
  | spurious {t : θ} : s.place t = .asleep → Step s (.spurious t) (s.goto t .woken)

/-- A thread that locks `mutex_` found it free. -/
lemma of_lock {s s' : Channel θ α} {t : θ} {p : Place α} (h : s.lock t p = some s') :
    s.mutex = none ∧ s' = { s.goto t p with mutex := some t } := by
  unfold lock at h
  split_ifs at h with hm
  exact ⟨hm, (Option.some.inj h).symm⟩

variable [Fintype θ] {s s' : Channel θ α} {e : Event θ α}

/-- **The table of steps is complete.** -/
theorem Step.of_step (h : s.step e = some s') : Step s e s' := by
  cases e with
  | receive t =>
    simp only [step, Place.isOutside_iff, Option.ite_none_right_eq_some, Option.some.injEq] at h
    obtain ⟨hp, rfl⟩ := h
    exact .receive hp
  | send t item =>
    simp only [step, Place.isOutside_iff, Option.ite_none_right_eq_some, Option.some.injEq] at h
    obtain ⟨hp, rfl⟩ := h
    exact .send hp
  | printContents t =>
    simp only [step, Place.isOutside_iff, Option.ite_none_right_eq_some, Option.some.injEq] at h
    obtain ⟨hp, rfl⟩ := h
    exact .printContents hp
  | spurious t =>
    simp only [step, Place.isAsleep_iff, Option.ite_none_right_eq_some, Option.some.injEq] at h
    obtain ⟨hp, rfl⟩ := h
    exact .spurious hp
  | notify t wakes =>
    cases wakes with
    | none =>
      simp only [step, Place.isAtNotify_iff, Bool.eq_false_iff, ne_eq, Place.isAsleep_iff,
        Option.ite_none_right_eq_some, Option.some.injEq] at h
      obtain ⟨⟨hp, hu⟩, rfl⟩ := h
      exact .nobody hp hu
    | some u =>
      simp only [step, Place.isAtNotify_iff, Place.isAsleep_iff, Option.ite_none_right_eq_some,
        Option.some.injEq] at h
      obtain ⟨⟨hp, hu⟩, rfl⟩ := h
      exact .wake hp hu
  | resume t =>
    simp only [step, resume] at h
    cases hp : s.place t with
    | outside | asleep | atNotify => simp [hp] at h
    | atReceive =>
      obtain ⟨hm, rfl⟩ := of_lock (by simpa [hp] using h)
      exact .lockReceive hp hm
    | atCoutLock =>
      simp only [hp, Option.ite_none_right_eq_some, Option.some.injEq] at h
      obtain ⟨hm, rfl⟩ := h
      exact .lockCout hp hm
    | atCoutUnlock =>
      simp only [hp, Option.some.injEq] at h
      exact h ▸ .unlockCout hp
    | atPredicate =>
      simp only [hp, Option.some.injEq] at h
      split_ifs at h with hq
      · exact h ▸ .wait hp (List.isEmpty_iff.mp hq)
      · exact h ▸ .goOn hp fun hnil => hq (List.isEmpty_iff.mpr hnil)
    | woken =>
      obtain ⟨hm, rfl⟩ := of_lock (by simpa [hp] using h)
      exact .lockAgain hp hm
    | atFront =>
      simp only [hp, Option.map_eq_some_iff] at h
      obtain ⟨item, hitem, rfl⟩ := h
      exact .front hp hitem
    | atPop item =>
      simp only [hp, Option.some.injEq] at h
      exact h ▸ .pop hp
    | atReturn item =>
      simp only [hp, Option.some.injEq] at h
      exact h ▸ .returned hp
    | atSend item =>
      obtain ⟨hm, rfl⟩ := of_lock (by simpa [hp] using h)
      exact .lockSend hp hm
    | atPush item =>
      simp only [hp, Option.some.injEq] at h
      exact h ▸ .push hp
    | atUnlock =>
      simp only [hp, Option.some.injEq] at h
      exact h ▸ .unlockSend hp
    | atPrintLock =>
      obtain ⟨hm, rfl⟩ := of_lock (by simpa [hp] using h)
      exact .lockPrint hp hm
    | atPrint =>
      simp only [hp, Option.some.injEq] at h
      exact h ▸ .unlockPrint hp

end Table

/-! ## The invariant -/

namespace Place

/-- The thread is between a lock of `mutex_` and its unlock. -/
def holdsMutex : Place α → Bool
  | atCoutLock | atCoutUnlock | atPredicate | atFront | atPop _ | atReturn _ | atPush _ | atUnlock
  | atPrint => true
  | _ => false

/-- The thread is between the lock of `cout_mutex` and its unlock. -/
def holdsCoutMutex : Place α → Bool
  | atCoutUnlock => true
  | _ => false

end Place

/-- What the locks protect. -/
structure Locked (s : Channel θ α) : Prop where
  mutex : Threads.Holds Place.holdsMutex s.place s.mutex
  coutMutex : Threads.Holds Place.holdsCoutMutex s.place s.coutMutex
  /-- Where an item is read, there is one. -/
  front : ∀ t, s.place t = .atFront → s.queue ≠ []
  /-- What was read is what is popped. -/
  pop : ∀ t item, s.place t = .atPop item → s.queue.head? = some item

/-- A new channel is not locked. -/
lemma locked_init : (init θ α).Locked where
  mutex t := by simp [init, Place.holdsMutex]
  coutMutex t := by simp [init, Place.holdsCoutMutex]
  front t ht := by simp [init] at ht
  pop t item ht := by simp [init] at ht

section Moves

variable [DecidableEq θ]

/-- The invariant when a thread moves and the queue stays. -/
lemma Locked.move {s : Channel θ α} (h : s.Locked) {t : θ} {p : Place α} {m c : Option θ}
    (hm : Threads.Holds Place.holdsMutex (Function.update s.place t p) m)
    (hc : Threads.Holds Place.holdsCoutMutex (Function.update s.place t p) c)
    (hfront : p = .atFront → s.queue ≠ [])
    (hpop : ∀ item, p = .atPop item → s.queue.head? = some item) :
    Locked ⟨s.queue, m, c, Function.update s.place t p⟩ where
  mutex := hm
  coutMutex := hc
  front u hu := by
    by_cases hut : u = t
    · subst hut
      exact hfront (by simpa using hu)
    · exact h.front u (by simpa [hut] using hu)
  pop u item hu := by
    by_cases hut : u = t
    · subst hut
      exact hpop item (by simpa using hu)
    · exact h.pop u item (by simpa [hut] using hu)

/-- The invariant when the holder of `mutex_` changes the queue: nobody else is reading it. -/
lemma Locked.change {s : Channel θ α} (h : s.Locked) {t : θ} {p : Place α} {q : List α}
    (ht : (s.place t).holdsMutex = true) (hp : p.holdsMutex = true)
    (hc : p.holdsCoutMutex = (s.place t).holdsCoutMutex) (hfront : p ≠ .atFront)
    (hpop : ∀ item, p ≠ .atPop item) :
    Locked ⟨q, s.mutex, s.coutMutex, Function.update s.place t p⟩ where
  mutex := h.mutex.stay (hp.trans ht.symm)
  coutMutex := h.coutMutex.stay hc
  front u hu := by
    by_cases hut : u = t
    · subst hut
      exact absurd (by simpa using hu) hfront
    · have hu' : s.place u = .atFront := by simpa [hut] using hu
      exact absurd (h.mutex.exclusive (by simp [hu', Place.holdsMutex]) ht) hut
  pop u item hu := by
    by_cases hut : u = t
    · subst hut
      exact absurd (by simpa using hu) (hpop item)
    · have hu' : s.place u = .atPop item := by simpa [hut] using hu
      exact absurd (h.mutex.exclusive (by simp [hu', Place.holdsMutex]) ht) hut

/-- The invariant when a thread moves without touching a lock, to where it does not read. -/
lemma Locked.goto {s : Channel θ α} (h : s.Locked) {t : θ} {p : Place α}
    (hm : p.holdsMutex = (s.place t).holdsMutex)
    (hc : p.holdsCoutMutex = (s.place t).holdsCoutMutex)
    (hfront : p = .atFront → s.queue ≠ [])
    (hpop : ∀ item, p = .atPop item → s.queue.head? = some item) : (s.goto t p).Locked :=
  h.move (h.mutex.stay hm) (h.coutMutex.stay hc) hfront hpop

/-- The invariant when a thread locks `mutex_`. -/
lemma Locked.lock {s : Channel θ α} (h : s.Locked) {t : θ} {p : Place α} (hm : s.mutex = none)
    (hp : p.holdsMutex = true) (hc : p.holdsCoutMutex = (s.place t).holdsCoutMutex)
    (hfront : p ≠ .atFront) (hpop : ∀ item, p ≠ .atPop item) :
    Locked { s.goto t p with mutex := some t } :=
  h.move (Threads.Holds.acquire (hm ▸ h.mutex) hp) (h.coutMutex.stay hc)
    (fun hf => absurd hf hfront) (fun item hf => absurd hf (hpop item))

/-- The invariant when a thread unlocks `mutex_`. -/
lemma Locked.unlock {s : Channel θ α} (h : s.Locked) {t : θ} {p : Place α}
    (ht : (s.place t).holdsMutex = true) (hp : p.holdsMutex = false)
    (hc : p.holdsCoutMutex = (s.place t).holdsCoutMutex) : (s.unlock t p).Locked :=
  h.move (h.mutex.release ht hp) (h.coutMutex.stay hc)
    (fun hf => by simp [hf, Place.holdsMutex] at hp)
    (fun item hf => by simp [hf, Place.holdsMutex] at hp)

variable [Fintype θ] {s s' : Channel θ α} {e : Event θ α}

/-- **A step keeps the invariant.** -/
lemma Locked.step (h : s.Locked) (hstep : s.step e = some s') : s'.Locked := by
  cases Step.of_step hstep with
  | receive hp | send hp | printContents hp | spurious hp =>
    exact h.goto (by rw [hp]; rfl) (by rw [hp]; rfl) (by simp) (by simp)
  | lockReceive hp hm | lockAgain hp hm | lockSend hp hm | lockPrint hp hm =>
    exact h.lock hm rfl (by rw [hp]; rfl) (by simp) (by simp)
  | lockCout hp hc =>
    exact h.move (h.mutex.stay (by rw [hp]; rfl)) (Threads.Holds.acquire (hc ▸ h.coutMutex) rfl)
      (by simp) (by simp)
  | unlockCout hp =>
    exact h.move (h.mutex.stay (by rw [hp]; rfl)) (h.coutMutex.release (by rw [hp]; rfl) rfl)
      (by simp) (by simp)
  | wait hp | returned hp | unlockSend hp | unlockPrint hp =>
    exact h.unlock (by rw [hp]; rfl) rfl (by rw [hp]; rfl)
  | goOn hp hq => exact h.goto (by rw [hp]; rfl) (by rw [hp]; rfl) (fun _ => hq) (by simp)
  | front hp hitem =>
    refine h.goto (by rw [hp]; rfl) (by rw [hp]; rfl) (by simp) fun item' heq => ?_
    rw [hitem, Place.atPop.inj heq]
  | pop hp | push hp => exact h.change (by rw [hp]; rfl) rfl (by rw [hp]; rfl) (by simp) (by simp)
  | @wake t u hp hu =>
    have ht : (s.goto t .outside).Locked :=
      h.goto (by rw [hp]; rfl) (by rw [hp]; rfl) (by simp) (by simp)
    have hne : u ≠ t := fun heq => by simp [heq, hp] at hu
    have hplace : (s.goto t .outside).place u = .asleep := by simp [Channel.goto, hne, hu]
    exact ht.goto (by rw [hplace]; rfl) (by rw [hplace]; rfl) (by simp) (by simp)
  | nobody hp => exact h.goto (by rw [hp]; rfl) (by rw [hp]; rfl) (by simp) (by simp)

/-- **What the locks protect**, in every reachable state. -/
theorem locked {es : List (Event θ α)} (h : Run.exec step (init θ α) es = some s) : s.Locked :=
  Run.invariant (fun _ _ _ ht hstep => ht.step hstep) locked_init h

end Moves

end Channel

end DagRider
