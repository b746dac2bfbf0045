import DagRider.Channel.Refinement

set_option relaxedAutoImplicit false
set_option autoImplicit false

/-!
# No wake-up is lost

`send` notifies after it has unlocked `mutex_`, so between its push and its notification other
threads may come and go; and a notification without a sleeping thread is lost. Still no receiver
sleeps on an item: as long as one sleeps, there are at most as many items as threads that will
take one, find the queue empty, or notify. And the threads of a channel never block each other for
good: without new calls they all come to an end, or wait on an empty queue.

## Main definitions

* `DagRider.Channel.Place.owes` — the threads that will take an item or wake a sleeper.
* `DagRider.Channel.Covered` — the invariant of the sleepers.
* `DagRider.Channel.Place.rank` — how far a thread is from the end of its call.
* `DagRider.Channel.Event.Internal` — the steps that end the calls that were made.

## Main results

* `DagRider.Channel.Covered.step` — a step keeps the invariant of the sleepers.
* `DagRider.Channel.rank_lt` — an internal step brings the threads nearer to the end.
* `DagRider.Channel.places_of_resting` — where the threads are when no internal step is left.
* `DagRider.Channel.comes_to_rest` — all calls end, or wait for a send.
-/

namespace DagRider

open Function

namespace Channel

variable {θ α : Type} [DecidableEq θ] [Fintype θ] {s s' : Channel θ α} {e : Event θ α}

/-! ## The sleepers -/

namespace Place

/-- Whether a thread will take an item, find the queue empty, or notify. -/
def owes : Place α → ℕ
  | atReceive | atCoutLock | atCoutUnlock | atPredicate | woken | atFront | atPop _ | atUnlock
  | atNotify => 1
  | _ => 0

end Place

/-- While a thread sleeps, there are at most as many items as threads that owe something. -/
def Covered (s : Channel θ α) : Prop :=
  (∃ t, s.place t = .asleep) → s.queue.length ≤ Threads.total Place.owes s.place

/-- The invariant when a thread that does not go to sleep moves. -/
lemma Covered.move (h : s.Covered) {t : θ} {p : Place α} {q : List α} {m c : Option θ}
    (hp : p ≠ .asleep) (hlen : q.length + (s.place t).owes ≤ s.queue.length + p.owes) :
    Covered ⟨q, m, c, update s.place t p⟩ := by
  rintro ⟨u, hu⟩
  have hne : u ≠ t := fun heq => hp (by simpa [heq] using hu)
  have hold : ∃ u, s.place u = .asleep := ⟨u, by simpa [hne] using hu⟩
  have hlast := h hold
  have htotal : Threads.total Place.owes (update s.place t p) + (s.place t).owes =
      Threads.total Place.owes s.place + p.owes := Threads.total_update
  show q.length ≤ Threads.total Place.owes (update s.place t p)
  omega

/-- **A step keeps the invariant of the sleepers.**

**Proof sketch.** A thread goes to sleep only on an empty queue. A push adds an item and a thread
that owes a notification; a pop takes an item and settles a debt; a notification hands the debt
over to the thread it wakes, or finds that nobody sleeps. -/
lemma Covered.step (h : s.Covered) (hs : s.Locked) (hstep : s.step e = some s') : s'.Covered := by
  cases Step.of_step hstep with
  | receive hp | send hp | printContents hp | spurious hp | goOn hp | front hp | unlockCout hp
  | lockReceive hp | lockAgain hp | lockSend hp | lockPrint hp | lockCout hp | returned hp
  | unlockSend hp | unlockPrint hp =>
    exact h.move (by simp) (by simp [hp, Place.owes])
  | wait hp hq =>
    intro _
    show s.queue.length ≤ _
    simp [hq]
  | @pop t item hp =>
    obtain ⟨queue, hq⟩ : ∃ queue, s.queue = item :: queue :=
      List.head?_eq_some_iff.mp (hs.pop t item hp)
    exact h.move (by simp) (by simp [hp, hq, Place.owes])
  | push hp => exact h.move (by simp) (by simp [hp, Place.owes])
  | @wake t u hp hu =>
    intro _
    have hlast := h ⟨u, hu⟩
    have hne : u ≠ t := fun heq => by simp [heq, hp] at hu
    have hu' : update s.place t .outside u = .asleep := by simpa [hne] using hu
    have hleave : Threads.total Place.owes (update s.place t .outside) + (s.place t).owes =
        Threads.total Place.owes s.place + Place.owes (.outside : Place α) := Threads.total_update
    have hwake : Threads.total Place.owes (update (update s.place t .outside) u .woken) +
        (update s.place t .outside u).owes =
        Threads.total Place.owes (update s.place t .outside) + Place.owes (.woken : Place α) :=
      Threads.total_update
    rw [hp] at hleave
    rw [hu'] at hwake
    simp only [Place.owes] at hleave hwake
    show s.queue.length ≤ Threads.total Place.owes (update (update s.place t .outside) u .woken)
    omega
  | @nobody t hp hu =>
    rintro ⟨u, hu'⟩
    by_cases hut : u = t
    · subst hut
      simp [goto] at hu'
    · exact absurd (by simpa [goto, hut] using hu') (hu u)

/-- The invariant of the sleepers, in every reachable state. -/
lemma covered {es : List (Event θ α)} (h : Run.exec step (init θ α) es = some s) : s.Covered := by
  have hboth : s.Locked ∧ s.Covered := by
    refine Run.invariant (I := fun s => s.Locked ∧ s.Covered) ?_ ⟨locked_init, ?_⟩ h
    · rintro t e u ⟨hl, hc⟩ hu
      exact ⟨hl.step hu, hc.step hl hu⟩
    · rintro ⟨t, ht⟩
      simp [init] at ht
  exact hboth.2

/-! ## Coming to rest -/

namespace Place

/-- How far a thread is from the end of its call, or from sleep. -/
def rank : Place α → ℕ
  | outside | asleep => 0
  | atReturn _ | atPrint => 1
  | atPop _ | atPrintLock => 2
  | atFront => 3
  | atPredicate => 4
  | atCoutUnlock | woken => 5
  | atCoutLock | atNotify => 6
  | atReceive | atUnlock => 7
  | atPush _ => 8
  | atSend _ => 9

end Place

/-- The steps of threads inside a call, without unfounded wake-ups. -/
def Event.Internal : Event θ α → Prop
  | .resume _ | .notify _ _ => True
  | _ => False

/-- A thread that comes nearer to the end of its call. -/
lemma total_rank_lt {place : θ → Place α} {t : θ} {p : Place α} (h : p.rank < (place t).rank) :
    Threads.total Place.rank (update place t p) < Threads.total Place.rank place := by
  have htotal : Threads.total Place.rank (update place t p) + (place t).rank =
      Threads.total Place.rank place + p.rank := Threads.total_update
  omega

/-- **An internal step brings the threads nearer to the end of their calls.** -/
lemma rank_lt (he : e.Internal) (hstep : s.step e = some s') :
    Threads.total Place.rank s'.place < Threads.total Place.rank s.place := by
  cases Step.of_step hstep with
  | receive | send | printContents | spurious => exact he.elim
  | lockReceive hp | lockAgain hp | lockSend hp | lockPrint hp | lockCout hp | unlockCout hp
  | goOn hp | front hp | pop hp | push hp | wait hp | returned hp | unlockSend hp
  | unlockPrint hp | nobody hp =>
    exact total_rank_lt (by rw [hp]; simp [Place.rank])
  | @wake t u hp hu =>
    have hne : u ≠ t := fun heq => by simp [heq, hp] at hu
    have hu' : update s.place t .outside u = .asleep := by simpa [hne] using hu
    have hleave : Threads.total Place.rank (update s.place t .outside) + (s.place t).rank =
        Threads.total Place.rank s.place + Place.rank (.outside : Place α) := Threads.total_update
    have hwake : Threads.total Place.rank (update (update s.place t .outside) u .woken) +
        (update s.place t .outside u).rank =
        Threads.total Place.rank (update s.place t .outside) + Place.rank (.woken : Place α) :=
      Threads.total_update
    rw [hp] at hleave
    rw [hu'] at hwake
    simp only [Place.rank] at hleave hwake
    show Threads.total Place.rank (update (update s.place t .outside) u .woken) < _
    omega

/-- **Where no internal step is left, `mutex_` is free.** Its holder could go on; at the lock of
`cout_mutex`, the holder of that one could. -/
lemma mutex_of_resting (hs : s.Locked) (hrest : Run.Resting step Event.Internal s) :
    s.mutex = none := by
  by_contra hne
  obtain ⟨t, ht⟩ := Option.ne_none_iff_exists'.mp hne
  have hstuck : ∀ u, s.resume u = none := fun u => hrest (.resume u) trivial
  have hholds := (hs.mutex t).mpr ht
  have hresume := hstuck t
  unfold resume at hresume
  cases hp : s.place t with
  | atCoutLock =>
    simp only [hp, ite_eq_right_iff, reduceCtorEq, imp_false] at hresume
    obtain ⟨u, hu⟩ := Option.ne_none_iff_exists'.mp hresume
    have hcout : s.place u = .atCoutUnlock := by
      have hregion := (hs.coutMutex u).mpr hu
      cases hq : s.place u <;> simp [hq, Place.holdsCoutMutex] at hregion ⊢
    have hlast := hstuck u
    simp [resume, hcout] at hlast
  | atFront =>
    simp only [hp, Option.map_eq_none_iff, List.head?_eq_none_iff] at hresume
    exact hs.front t hp hresume
  | _ => simp_all [Place.holdsMutex]

/-- **Where the threads are when no internal step is left**: outside, or asleep. -/
lemma places_of_resting (hs : s.Locked) (hrest : Run.Resting step Event.Internal s) (t : θ) :
    s.place t = .outside ∨ s.place t = .asleep := by
  have hm := mutex_of_resting hs hrest
  have hresume : s.resume t = none := hrest (.resume t) trivial
  unfold resume lock at hresume
  cases hp : s.place t with
  | outside => exact Or.inl rfl
  | asleep => exact Or.inr rfl
  | atReceive | woken | atSend | atPrintLock => simp [hp, hm] at hresume
  | atNotify =>
    -- a notification wakes a sleeper, or there is none
    by_cases hsleep : ∃ u, s.place u = .asleep
    · obtain ⟨u, hu⟩ := hsleep
      have hnotify := hrest (.notify t (some u)) trivial
      simp [step, hp, hu] at hnotify
    · have hnotify := hrest (.notify t none) trivial
      simp only [not_exists] at hsleep
      simp [step, hp, Bool.eq_false_iff, hsleep] at hnotify
  | _ =>
    -- between a lock and its unlock there is nobody
    have hholds : (s.place t).holdsMutex = true := by rw [hp]; rfl
    have hholder := (hs.mutex t).mp hholds
    simp [hm] at hholder

omit [DecidableEq θ] in
/-- The rank of a channel is bounded by the number of its threads. -/
lemma total_rank_le : Threads.total Place.rank s.place ≤ 9 * Fintype.card θ := by
  have hplace : ∀ t ∈ Finset.univ, (s.place t).rank ≤ 9 := by
    intro t _
    cases s.place t <;> simp [Place.rank]
  calc Threads.total Place.rank s.place ≤ Finset.univ.card • 9 :=
        Finset.sum_le_card_nsmul _ _ _ hplace
    _ = 9 * Fintype.card θ := by rw [Finset.card_univ, Nat.nsmul_eq_mul, Nat.mul_comm]

/-- **All calls end, or wait for a send.** In every reachable state of a channel, with any number
of threads inside its member functions: as long as no new call is made and no wait ends without
cause, the threads together take at most nine times as many steps as there are threads, in any
order; and when they can take none, every thread has returned or sleeps in `receive`, and if one
sleeps then the queue is empty, and everything that was ever put has been returned, in order. Such a
state can be reached.

**Proof sketch.** An internal step lowers the total rank (`rank_lt`), so the runs are short, and
one leads to rest (`Run.exists_resting`). At rest nobody holds `mutex_` and the threads are outside
or asleep (`places_of_resting`). None of those owes anything, so if one sleeps then the queue is
empty (`covered`), and the hand too, so all that was put was returned (`flow_of_exec`). -/
theorem comes_to_rest {es : List (Event θ α)} (h : Run.exec step (init θ α) es = some s) :
    (∀ fs u, (∀ e ∈ fs, e.Internal) → Run.exec step s fs = some u →
      fs.length ≤ 9 * Fintype.card θ ∧
      (Run.Resting step Event.Internal u →
        (∀ t, u.place t = .outside ∨ u.place t = .asleep) ∧
        ((∃ t, u.place t = .asleep) → u.queue = [] ∧
          Run.trace step returns (init θ α) (es ++ fs) =
            Run.trace step puts (init θ α) (es ++ fs)))) ∧
    ∃ fs u, (∀ e ∈ fs, e.Internal) ∧ Run.exec step s fs = some u ∧
      Run.Resting step Event.Internal u := by
  have hrank : ∀ (s : Channel θ α) e s', s.Locked → e.Internal → s.step e = some s' →
      Threads.total Place.rank s'.place < Threads.total Place.rank s.place :=
    fun s e s' _ he hstep => rank_lt he hstep
  have hkeep : ∀ (s : Channel θ α) e s', s.Locked → s.step e = some s' → s'.Locked :=
    fun s e s' hs hstep => hs.step hstep
  refine ⟨fun fs u hfs hu => ⟨?_, fun hrest => ?_⟩, ?_⟩
  · have hlen := Run.length_add_rank_le hkeep hrank (locked h) hfs hu
    have hle := total_rank_le (s := s)
    omega
  · have hrun : Run.exec step (init θ α) (es ++ fs) = some u :=
      Run.exec_append_eq_some.mpr ⟨s, h, hu⟩
    have hplaces := places_of_resting (locked hrun) hrest
    refine ⟨hplaces, fun hsleep => ?_⟩
    have howes : Threads.total Place.owes u.place = 0 := by
      refine Threads.total_eq_zero fun t => ?_
      rcases hplaces t with ht | ht <;> rw [ht] <;> rfl
    have hqueue : u.queue = [] := by
      have hle := covered hrun hsleep
      rw [howes, Nat.le_zero] at hle
      exact List.length_eq_zero_iff.mp hle
    have hhand : u.inHand = [] := by
      unfold inHand
      rw [mutex_of_resting (locked hrun) hrest]
      rfl
    have hflow := flow_of_exec hrun
    rw [hhand, hqueue, List.append_nil, List.append_nil] at hflow
    exact ⟨hqueue, hflow.symm⟩
  · exact Run.exists_resting Nat.lt_wfRel.wf hkeep hrank (locked h)

/-- While the receiver of the handover sleeps and the sender is on its way, some steps are left,
and they lead to rest. -/
theorem comes_to_rest_handover : ∃ s, Run.exec step (init Bool ℕ) (handover.take 7) = some s ∧
    s.place true = .asleep ∧ ∃ fs u, (∀ e ∈ fs, e.Internal) ∧ Run.exec step s fs = some u ∧
      Run.Resting step Event.Internal u := by
  obtain ⟨s, h, hsleep⟩ : ∃ s, Run.exec step (init Bool ℕ) (handover.take 7) = some s ∧
      (s.place true).isAsleep = true := Run.exists_exec_of_any (by decide +kernel)
  exact ⟨s, h, Place.isAsleep_iff.mp hsleep, (comes_to_rest h).2⟩

end Channel

end DagRider
