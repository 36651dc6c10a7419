/-
# `PBase.TimerControl.Sleep` — no timer is slept through

`add_timer` skips the wakeup twice: when the timer is not the earliest of its bucket, and
when it is not before `min_timestamp_`.  The second is safe because `min_timestamp_` covers
the buckets drained since it was reset: every timer there runs at or after it, or some
`add_timer` is still on its way to lower it far enough (`Sleep.covered`).  The first is safe
because the bucket minimum is the time of a timer in the bucket, which is covered.

The other half is about the wait.  The thread loads `signal_pending_` before
`min_timestamp_`; whoever lowers `min_timestamp_` afterwards increments `signal_pending_`
next, so either the wait does not block or a wakeup is still to come (`Waiting`).
-/
import PBase.TimerControl.Exclusion

namespace PBase.TimerControl

open PBase.Lib

/-! ## The invariant -/

/-- The time an `add_timer` is about to lower `min_timestamp_` to. -/
def ClientPc.announced : ClientPc → List Nat
  | .addLoadMin _ runTime | .addCas _ runTime _ => [runTime]
  | _ => []

/-- It has lowered `min_timestamp_` and is about to increment `signal_pending_`. -/
def ClientPc.Signalling : ClientPc → Prop
  | .addSignal _ _ => True
  | _ => False

/-- It is about to call `futex_wake`. -/
def ClientPc.Waking : ClientPc → Prop
  | .addWake _ _ => True
  | _ => False

/-- An `add_timer` is in progress. -/
def ClientPc.Adding : ClientPc → Prop
  | .addAcquire _ | .addWrite _ _ | .addStore _ _ | .addBucket _ _ | .addLoadMin _ _
  | .addCas _ _ _ | .addSignal _ _ | .addWake _ _ | .addReturn _ _ => True
  | _ => False

/-- Bucket `i` was drained after the last reset of `min_timestamp_`. -/
def RunPc.Drained (i : Nat) : RunPc → Prop
  | .top | .resetMin | .exit _ | .exited | .aborted _ => False
  | .drain j => i < j
  | .scan j _ | .scanAssert j _ _ | .scanRelease j _ _ => i ≤ j
  | _ => True

variable {ι : Type}

/-- The point in time is at or before all timers in the heap. -/
def BeforeHeap (s : State ι) (time : Nat) : Prop := ∀ x ∈ s.tmHeap, time ≤ (s.mem x).runTime

def Waiting (s : State ι) : Prop :=
  match s.run with
  | .loadMin signalPending => signalPending ≤ s.signalPending
  | .decide signalPending minSleepPoint | .wait signalPending minSleepPoint =>
      signalPending ≤ s.signalPending ∧ BeforeHeap s minSleepPoint ∧
        (minSleepPoint ≤ s.minTimestamp ∨ signalPending < s.signalPending ∨
          ∃ t, (s.client t).Signalling)
  | .blocked _ minSleepPoint => BeforeHeap s minSleepPoint ∧
      (minSleepPoint ≤ s.minTimestamp ∨ (∃ t, (s.client t).Signalling) ∨
        ∃ t, (s.client t).Waking)
  | _ => True

/-- `min_timestamp_`, or an `add_timer` about to lower it, is at or before the time. -/
def CoveredAt (s : State ι) (time : Nat) : Prop :=
  s.minTimestamp ≤ time ∨ ∃ t, ∃ r ∈ (s.client t).announced, r ≤ time

structure Sleep (n : Nat) (s : State ι) : Prop where
  le_max : s.minTimestamp ≤ maxTimestamp
  bucketMin : ∀ i, (s.bucket i).minTimestamp = maxTimestamp ∨
    ∃ y ∈ (s.bucket i).list, (s.mem y).runTime = (s.bucket i).minTimestamp
  covered : ∀ i < n, s.run.Drained i → ∀ x ∈ (s.bucket i).list, CoveredAt s (s.mem x).runTime
  lower : ∀ t id r m, s.client t = .addCas id r m → r < m
  heap : s.isHeap s.tmHeap
  waiting : Waiting s

/-- Fewer than 2^32 increments of `signal_pending_` since the thread about to wait loaded
it. -/
def FewSignals (s : State ι) (_ : Event) : Prop :=
  ∀ signalPending minSleepPoint, s.run = .wait signalPending minSleepPoint →
    s.signalPending < signalPending + 2 ^ 32

theorem CoveredAt.le {s : State ι} {a b : Nat} (h : CoveredAt s a) (hab : a ≤ b) :
    CoveredAt s b := by
  rcases h with h | ⟨t, r, hr, hra⟩
  · exact .inl (Nat.le_trans h hab)
  · exact .inr ⟨t, r, hr, Nat.le_trans hra hab⟩

namespace Sleep

variable {n : Nat} {s s' : State ι} {e : Event}

/-- The sleep point is at or before `min_timestamp_` and all timers in the heap. -/
theorem minSleepPoint_le (h : Sleep n s) :
    minSleepPoint s ≤ s.minTimestamp ∧ BeforeHeap s (minSleepPoint s) := by
  unfold minSleepPoint BeforeHeap
  cases hheap : s.tmHeap with
  | nil => simp
  | cons x l =>
      have hheap' : s.isHeap (x :: l) := hheap ▸ h.heap
      have hle : ∀ y ∈ x :: l, (s.mem x).runTime ≤ (s.mem y).runTime :=
        IsHeap.head_le (r := fun a b => (s.mem a).runTime ≤ (s.mem b).runTime)
          (fun _ => Nat.le_refl _) (fun _ _ _ => Nat.le_trans) hheap'
      simp only
      split
      · exact ⟨by omega, hle⟩
      · exact ⟨Nat.le_refl _, fun y hy => Nat.le_trans (by omega) (hle y hy)⟩

/-! ### The timer thread -/

/-- A step of the timer thread that leaves `min_timestamp_` and the buckets alone. -/
theorem ofRun (h : Sleep n s) (hrt : ∀ x, (s'.mem x).runTime = (s.mem x).runTime)
    (hsame : s'.minTimestamp = s.minTimestamp ∧ s'.bucket = s.bucket ∧ s'.client = s.client)
    (hdrained : ∀ i < n, s'.run.Drained i → s.run.Drained i) (hheap : s'.isHeap s'.tmHeap)
    (hwaiting : Waiting s') : Sleep n s' := by
  obtain ⟨hmin, hbucket, hclient⟩ := hsame
  refine ⟨hmin ▸ h.le_max, fun i => ?_, fun i hi hd x hx => ?_, fun t id r m ht => ?_, hheap,
    hwaiting⟩
  · simpa [hbucket, hrt] using h.bucketMin i
  · rw [hbucket] at hx
    have := h.covered i hi (hdrained i hi hd) x hx
    simpa [CoveredAt, hmin, hclient, hrt] using this
  · exact h.lower t id r m (hclient ▸ ht)

theorem isHeap_same {l : List Nat} (h : s.isHeap l)
    (hrt : ∀ x ∈ l, (s'.mem x).runTime = (s.mem x).runTime) : s'.isHeap l :=
  h.imp fun x hx y hy hxy => by rw [hrt x hx, hrt y hy]; exact hxy

/-- A step of the timer thread that only moves it, to a point before the wait. -/
theorem goto (h : Sleep n s) {p : RunPc} (hdrained : ∀ i < n, p.Drained i → s.run.Drained i)
    (hwaiting : Waiting (s.goto p)) : Sleep n (s.goto p) :=
  h.ofRun (fun _ => rfl) ⟨rfl, rfl, rfl⟩ hdrained h.heap hwaiting

theorem runStep (h : Sleep n s) (hs : RunStep n s e s') (hfew : FewSignals s e) : Sleep n s' := by
  have hw := h.waiting
  cases hs with
  | stopNotSet ht _ | heapEmpty ht _ | topMatch ht _ _ | topMismatch ht _ _ | clockEarly ht _
  | callReturn ht | decideNoWait ht _ | waitReturn ht _ | timeout ht | runCasFail ht _
  | scanMismatch ht _ =>
      exact h.goto (by simp [ht, RunPc.Drained]) trivial
  | scanAssert ht | topAssert ht | runAssert ht | exitEnd ht =>
      refine h.goto ?_ ?_ <;> split <;> simp [ht, RunPc.Drained, Waiting, State.goto]
  | scanEnd ht =>
      exact h.goto (fun _ _ hd => by rw [ht]; exact Nat.lt_succ_iff.mp hd) trivial
  | drainEnd ht hi =>
      exact h.goto (fun j hj _ => by rw [ht]; exact Nat.lt_of_lt_of_le hj (Nat.not_lt.mp hi))
          trivial
  | loadSignal ht => exact h.goto (by simp [ht, RunPc.Drained]) (Nat.le_refl _)
  | loadMin ht =>
      rw [Waiting, ht] at hw
      obtain ⟨hmin, hheap⟩ := h.minSleepPoint_le
      exact h.goto (by simp [ht, RunPc.Drained]) ⟨hw, hheap, .inl hmin⟩
  | decideWait ht _ =>
      rw [Waiting, ht] at hw
      exact h.goto (by simp [ht, RunPc.Drained]) hw
  | waitBlock ht heq =>
      rw [Waiting, ht] at hw
      obtain ⟨hle, hheap, hcases⟩ := hw
      have hlt := hfew _ _ ht
      refine h.goto (by simp [ht, RunPc.Drained]) ⟨hheap, ?_⟩
      rcases hcases with hmin | hsig | hsig
      · exact .inl hmin
      · -- the count is the one that was loaded, modulo 2^32 and so altogether
        omega
      · exact .inr (.inl hsig)
  | stopSet ht _ =>
      exact h.ofRun (fun _ => rfl) ⟨rfl, rfl, rfl⟩ (by simp [RunPc.Drained]) IsHeap.nil trivial
  | scanPush ht _ _ hheap =>
      exact h.ofRun (fun _ => rfl) ⟨rfl, rfl, rfl⟩ (by simp [ht, RunPc.Drained]) (hheap h.heap)
        trivial
  | clockDue ht _ _ _ hheap =>
      exact h.ofRun (fun _ => rfl) ⟨rfl, rfl, rfl⟩ (by simp [ht, RunPc.Drained]) (hheap h.heap)
        trivial
  | runCas ht _ | runStore ht =>
      have hrt : ∀ x v y, ((s.setVersion x v).mem y).runTime = (s.mem y).runTime :=
        fun x v y => (Agree.setVersion s x v y).2.2.2
      exact h.ofRun (hrt _ _) ⟨rfl, rfl, rfl⟩ (by simp [ht, State.goto, RunPc.Drained])
        (isHeap_same h.heap fun y _ => hrt _ _ y) trivial
  | scanRelease ht | runRelease ht | exitRelease ht =>
      exact h.ofRun (fun _ => rfl) ⟨rfl, rfl, rfl⟩ (by simp [ht, State.release, RunPc.Drained])
        h.heap trivial
  | topRelease ht _ _ hheap =>
      exact h.ofRun (fun _ => rfl) ⟨rfl, rfl, rfl⟩ (by simp [ht, State.release, RunPc.Drained])
        (hheap h.heap) trivial
  | resetMin ht =>
      exact ⟨Nat.le_refl _, h.bucketMin, fun i _ hd => absurd hd (Nat.not_lt_zero i), h.lower,
        h.heap, trivial⟩
  | @drain i ht hi =>
      refine ⟨h.le_max, fun j => ?_, fun j hj hd x hx => ?_, h.lower, h.heap, trivial⟩
      · by_cases hji : j = i
        · subst hji; simp [TimerBucket.empty]
        · simpa [Function.update_of_ne hji] using h.bucketMin j
      · by_cases hji : j = i
        · subst hji; simp [TimerBucket.empty] at hx
        · simp only [Function.update_of_ne hji] at hx
          refine h.covered j hj ?_ x hx
          rw [ht]
          exact Nat.lt_of_le_of_ne hd hji

/-! ### A client -/

variable [DecidableEq ι] {es : List Event} {t : ι}

theorem exists_client {P : ClientPc → Prop} {p : ClientPc} (h : ∃ u, P (s.client u))
    (hold : ¬ P (s.client t)) : ∃ u, P (Function.update s.client t p u) := by
  obtain ⟨u, hu⟩ := h
  have hut : u ≠ t := by
    rintro rfl
    exact hold hu
  exact ⟨u, by rwa [Function.update_of_ne hut]⟩

/-- The announcements after a step of a client: it gave one up only if the minimum is
low enough. -/
theorem coveredAt_client {p : ClientPc} {time : Nat} (h : CoveredAt s time)
    (hclient : s'.client = Function.update s.client t p)
    (hmin : s'.minTimestamp ≤ s.minTimestamp)
    (hann : ∀ r ∈ (s.client t).announced, r ∈ p.announced ∨ s'.minTimestamp ≤ r) :
    CoveredAt s' time := by
  rcases h with h | ⟨u, r, hr, hle⟩
  · exact .inl (Nat.le_trans hmin h)
  · by_cases hu : u = t
    · subst hu
      rcases hann r hr with hr | hr
      · exact .inr ⟨u, r, by rwa [hclient, Function.update_self], hle⟩
      · exact .inl (Nat.le_trans hr hle)
    · exact .inr ⟨u, r, by rwa [hclient, Function.update_of_ne hu], hle⟩

/-- A step of a client that leaves `min_timestamp_`, the buckets and the heap alone. -/
theorem client (h : Sleep n s) {p : ClientPc}
    (hclient : s'.client = Function.update s.client t p)
    (hsame : s'.minTimestamp = s.minTimestamp ∧ s'.bucket = s.bucket ∧ s'.tmHeap = s.tmHeap)
    (hrun : ∀ i, s'.run.Drained i → s.run.Drained i)
    (hrt : ∀ x, Queued s x → (s'.mem x).runTime = (s.mem x).runTime)
    (hann : ∀ r ∈ (s.client t).announced, r ∈ p.announced ∨ s.minTimestamp ≤ r)
    (hlower : ∀ id r m, p = .addCas id r m → r < m) (hwaiting : Waiting s') : Sleep n s' := by
  obtain ⟨hmin, hbucket, hheap⟩ := hsame
  refine ⟨hmin ▸ h.le_max, fun i => ?_, fun i hi hd x hx => ?_, fun u id r m hu => ?_, ?_, hwaiting⟩
  · rw [hbucket]
    refine (h.bucketMin i).imp_right fun ⟨y, hy, hmin⟩ => ⟨y, hy, ?_⟩
    rw [hrt y (.inl ⟨i, hy⟩), hmin]
  · rw [hbucket] at hx
    rw [hrt x (.inl ⟨i, hx⟩)]
    exact coveredAt_client (h.covered i hi (hrun i hd) x hx) hclient (Nat.le_of_eq hmin)
      (by simpa [hmin] using hann)
  · rw [hclient] at hu
    by_cases hut : u = t
    · subst hut
      rw [Function.update_self] at hu
      exact hlower id r m hu
    · rw [Function.update_of_ne hut] at hu
      exact h.lower u id r m hu
  · rw [hheap]
    exact isHeap_same h.heap fun x hx => hrt x (.inr (.inl hx))

/-- The wait is unaffected by a client that neither was to signal nor to wake. -/
theorem waiting_client (h : Waiting s) {p : ClientPc}
    (hclient : s'.client = Function.update s.client t p)
    (hsame : s'.minTimestamp = s.minTimestamp ∧ s'.tmHeap = s.tmHeap ∧ s'.run = s.run)
    (hsignal : s.signalPending ≤ s'.signalPending)
    (hrt : ∀ x ∈ s.tmHeap, (s'.mem x).runTime = (s.mem x).runTime)
    (hold : ¬ (s.client t).Signalling ∧ ¬ (s.client t).Waking) : Waiting s' := by
  obtain ⟨hmin, hheap, hrun⟩ := hsame
  have hbefore : ∀ {time}, BeforeHeap s time → BeforeHeap s' time := fun hb x hx => by
    rw [hheap] at hx
    rw [hrt x hx]
    exact hb x hx
  have hsig : (∃ u, (s.client u).Signalling) → ∃ u, (s'.client u).Signalling := fun hs =>
    hclient ▸ exists_client hs hold.1
  have hwake : (∃ u, (s.client u).Waking) → ∃ u, (s'.client u).Waking := fun hs =>
    hclient ▸ exists_client hs hold.2
  simp only [Waiting, hrun, hmin] at h ⊢
  cases hr : s.run <;> rw [hr] at h <;> simp only at h ⊢
  case loadMin => exact Nat.le_trans h hsignal
  case decide | wait =>
    obtain ⟨hle, hb, hcases⟩ := h
    exact ⟨Nat.le_trans hle hsignal, hbefore hb, hcases.imp_right (.imp
      (fun hlt => Nat.lt_of_lt_of_le hlt hsignal) hsig)⟩
  case blocked =>
    obtain ⟨hb, hcases⟩ := h
    exact ⟨hbefore hb, hcases.imp_right (.imp hsig hwake)⟩

/-- The timer goes on a bucket: if it is not the earliest there, an earlier one is
covered. -/
theorem bucket (h : Sleep n s) (ho : Owned es s) {id : TimerId} {r i : Nat} {p : ClientPc}
    (ht : s.client t = .addBucket id r)
    (hp : p = if ((s.bucket i).addTimer (low id.raw) r).1 then .addReturn id r
      else .addLoadMin id r) :
    Sleep n { s with
      bucket := Function.update s.bucket i ((s.bucket i).addTimer (low id.raw) r).2
      client := Function.update s.client t p } := by
  have hok := ho.client t
  rw [ht] at hok
  have hrt : (s.mem (low id.raw)).runTime = r := hok.2.2.2
  have hnone : ∀ q ∈ (s.client t).announced, q ∈ p.announced ∨ s.minTimestamp ≤ q := by
    simp [ht, ClientPc.announced]
  have hkeep : ∀ {time}, CoveredAt s time → CoveredAt { s with
      bucket := Function.update s.bucket i ((s.bucket i).addTimer (low id.raw) r).2
      client := Function.update s.client t p } time := fun hc =>
    coveredAt_client hc rfl (Nat.le_refl _) hnone
  have hlow : ∀ id' r' m, p ≠ .addCas id' r' m := by
    intro id' r' m
    rw [hp]
    split <;> simp
  have hold : ¬ (s.client t).Signalling ∧ ¬ (s.client t).Waking := by
    simp [ht, ClientPc.Signalling, ClientPc.Waking]
  refine ⟨h.le_max, fun j => ?_, fun j hj hd x hx => ?_, fun u id' r' m hu => ?_, h.heap,
    waiting_client h.waiting rfl ⟨rfl, rfl, rfl⟩ (Nat.le_refl _) (fun _ _ => rfl) hold⟩
  · by_cases hji : j = i
    · subst hji
      simp only [Function.update_self]
      unfold TimerBucket.addTimer
      split
      · exact .inr ⟨_, List.mem_cons_self, hrt⟩
      · exact (h.bucketMin j).imp_right fun ⟨y, hy, hmin⟩ => ⟨y, List.mem_cons_of_mem _ hy, hmin⟩
    · simpa [Function.update_of_ne hji] using h.bucketMin j
  · by_cases hji : j = i
    · subst hji
      simp only [Function.update_self, addTimer_list, List.mem_cons] at hx
      rcases hx with rfl | hx
      · by_cases hearly : r < (s.bucket j).minTimestamp
        · refine .inr ⟨t, r, ?_, Nat.le_of_eq hrt.symm⟩
          simp [hp, TimerBucket.addTimer, hearly, ClientPc.announced]
        · refine hkeep ?_
          rw [hrt]
          rcases h.bucketMin j with hmin | ⟨y, hy, hmin⟩
          · exact .inl (Nat.le_trans h.le_max (by omega))
          · exact (h.covered j hj hd y hy).le (by omega)
      · exact hkeep (h.covered j hj hd x hx)
    · simp only [Function.update_of_ne hji] at hx
      exact hkeep (h.covered j hj hd x hx)
  · by_cases hut : u = t
    · subst hut
      simp only [Function.update_self] at hu
      exact absurd hu (hlow _ _ _)
    · simp only [Function.update_of_ne hut] at hu
      exact h.lower u id' r' m hu

/-- `min_timestamp_` is lowered. -/
theorem cas (h : Sleep n s) {id : TimerId} {r m : Nat} (ht : s.client t = .addCas id r m)
    (hm : s.minTimestamp = m) :
    Sleep n { s with
      minTimestamp := r
      client := Function.update s.client t (.addSignal id r) } := by
  have hlt : r < s.minTimestamp := hm ▸ h.lower t id r m ht
  have hsignalling : ∃ u, (Function.update s.client t (.addSignal id r) u).Signalling :=
    ⟨t, by simp [ClientPc.Signalling]⟩
  refine ⟨Nat.le_trans (Nat.le_of_lt hlt) h.le_max, h.bucketMin, fun i hi hd x hx => ?_,
    fun u id' r' m' hu => ?_, h.heap, ?_⟩
  · refine coveredAt_client (h.covered i hi hd x hx) rfl (Nat.le_of_lt hlt) ?_
    intro q hq
    simp only [ht, ClientPc.announced, List.mem_singleton] at hq
    exact .inr (Nat.le_of_eq hq.symm)
  · by_cases hut : u = t
    · subst hut
      simp at hu
    · simp only [Function.update_of_ne hut] at hu
      exact h.lower u id' r' m' hu
  · have hw := h.waiting
    simp only [Waiting] at hw ⊢
    cases hr : s.run <;> rw [hr] at hw <;> simp only at hw ⊢
    case loadMin => exact hw
    case decide | wait => exact ⟨hw.1, hw.2.1, .inr (.inr hsignalling)⟩
    case blocked => exact ⟨hw.1, .inr (.inl hsignalling)⟩

/-- `signal_pending_` is incremented, by an `add_timer` that goes on to the wakeup or by
somebody else. -/
theorem signal (h : Sleep n s) {p : ClientPc} (hann : (s.client t).announced = [])
    (hwake : (s.client t).Signalling → p.Waking) (hnot : ¬ (s.client t).Waking)
    (hp : ∀ id r m, p ≠ .addCas id r m)
    (hclient : s'.client = Function.update s.client t p)
    (hsame : s'.minTimestamp = s.minTimestamp ∧ s'.bucket = s.bucket ∧ s'.tmHeap = s.tmHeap ∧
      s'.run = s.run ∧ s'.mem = s.mem)
    (hsignal : s'.signalPending = s.signalPending + 1) : Sleep n s' := by
  obtain ⟨hmin, hbucket, hheap, hrun, hmem⟩ := hsame
  refine h.client hclient ⟨hmin, hbucket, hheap⟩ (by simp [hrun]) (by simp [hmem])
    (by simp [hann]) (fun id r m hpc => absurd hpc (hp id r m)) ?_
  have hw := h.waiting
  have hbefore : ∀ {time}, BeforeHeap s time → BeforeHeap s' time := fun hb x hx => by
    rw [hheap] at hx
    rw [hmem]
    exact hb x hx
  simp only [Waiting, hrun, hmin, hsignal] at hw ⊢
  cases hr : s.run <;> rw [hr] at hw <;> simp only at hw ⊢
  case loadMin => omega
  case decide | wait =>
    exact ⟨by omega, hbefore hw.2.1, .inr (.inl (by omega))⟩
  case blocked =>
    refine ⟨hbefore hw.1, hw.2.imp_right fun hcases => ?_⟩
    rcases hcases with ⟨u, hu⟩ | hw
    · by_cases hut : u = t
      · subst hut
        exact .inr ⟨u, by rw [hclient, Function.update_self]; exact hwake hu⟩
      · exact .inl ⟨u, by rwa [hclient, Function.update_of_ne hut]⟩
    · exact .inr (hclient ▸ exists_client hw hnot)

/-- `futex_wake`: if the thread was blocked, it goes on. -/
theorem wake (h : Sleep n s) {p : ClientPc} (hann : (s.client t).announced = [])
    (hnot : ¬ (s.client t).Signalling) (hp : ∀ id r m, p ≠ .addCas id r m)
    (hclient : s'.client = Function.update s.client t p)
    (hsame : s'.minTimestamp = s.minTimestamp ∧ s'.bucket = s.bucket ∧ s'.tmHeap = s.tmHeap ∧
      s'.signalPending = s.signalPending ∧ s'.mem = s.mem)
    (hrun : s'.run = s.run.wake) : Sleep n s' := by
  obtain ⟨hmin, hbucket, hheap, hsignal, hmem⟩ := hsame
  refine h.client hclient ⟨hmin, hbucket, hheap⟩ (fun i hd => ?_) (by simp [hmem])
    (by simp [hann]) (fun id r m hpc => absurd hpc (hp id r m)) ?_
  · rw [hrun] at hd
    cases hr : s.run <;> rw [hr] at hd <;> first | exact hd | exact hd.elim
  · have hw := h.waiting
    have hbefore : ∀ {time}, BeforeHeap s time → BeforeHeap s' time := fun hb x hx => by
      rw [hheap] at hx
      rw [hmem]
      exact hb x hx
    simp only [Waiting, hrun, hmin, hsignal] at hw ⊢
    cases hr : s.run <;> rw [hr] at hw <;> simp only [RunPc.wake] at hw ⊢
    case loadMin => exact hw
    case decide | wait =>
      exact ⟨hw.1, hbefore hw.2.1, hw.2.2.imp_right (.imp_right fun hs =>
        hclient ▸ exists_client hs hnot)⟩

end Sleep

/-! ## Every step -/

section Steps
variable {n : Nat} {es : List Event} {s s' : State ι} {e : Event} [DecidableEq ι] {t : ι}

theorem Sleep.addStep (h : Sleep n s) (ho : Owned es s) (hs : AddStep n s t e s') :
    Sleep n s' := by
  have hupdate : ∀ {y : Nat} {m : Timer}, m.runTime = (s.mem y).runTime → ∀ x,
      (Function.update s.mem y m x).runTime = (s.mem x).runTime := fun {y m} hm x => by
    by_cases hx : x = y
    · subst hx; simpa using hm
    · simp [Function.update_of_ne hx]
  have hsame : ∀ x, Queued s x → (s'.mem x).runTime = (s.mem x).runTime := fun x hx =>
    ((ho.outside (.add t hs)).same x hx).2
  cases hs with
  | call _ ht | ret ht =>
      refine h.client rfl ⟨rfl, rfl, rfl⟩ (fun _ hd => hd) (fun _ _ => rfl)
        (by simp [ht, ClientPc.announced]) (by simp) ?_
      exact waiting_client h.waiting rfl ⟨rfl, rfl, rfl⟩ (Nat.le_refl _) (fun _ _ => rfl)
        (by simp [ht, ClientPc.Signalling, ClientPc.Waking])
  | acquire ht _ | acquireNew ht _ _ _ | store ht =>
      refine h.client rfl ⟨rfl, rfl, rfl⟩ (fun _ hd => hd) (fun x _ => hupdate (by rfl) x)
        (by simp [ht, ClientPc.announced]) (by simp) ?_
      exact waiting_client h.waiting rfl ⟨rfl, rfl, rfl⟩ (Nat.le_refl _)
          (fun x _ => hupdate (by rfl) x)
        (by simp [ht, ClientPc.Signalling, ClientPc.Waking])
  | write ht =>
      refine h.client rfl ⟨rfl, rfl, rfl⟩ (fun _ hd => hd) (fun x hx => hsame x hx)
        (by simp [ht, ClientPc.announced]) (by simp) ?_
      exact waiting_client h.waiting rfl ⟨rfl, rfl, rfl⟩ (Nat.le_refl _)
        (fun x hx => hsame x (.inr (.inl hx)))
        (by simp [ht, ClientPc.Signalling, ClientPc.Waking])
  | bucket ht _ => exact h.bucket ho ht rfl
  | @loadMin id r ht =>
      refine h.client rfl ⟨rfl, rfl, rfl⟩ (fun _ hd => hd) (fun _ _ => rfl) ?_ ?_ ?_
      · intro q hq
        simp only [ht, ClientPc.announced, List.mem_singleton] at hq
        by_cases hle : s.minTimestamp ≤ r
        · exact .inr (hq ▸ hle)
        · exact .inl (by simp [hle, hq, ClientPc.announced])
      · intro id' r' m hp
        by_cases hle : s.minTimestamp ≤ r
        · simp [hle] at hp
        · simp only [if_neg hle, ClientPc.addCas.injEq] at hp
          omega
      · exact waiting_client h.waiting rfl ⟨rfl, rfl, rfl⟩ (Nat.le_refl _) (fun _ _ => rfl)
          (by simp [ht, ClientPc.Signalling, ClientPc.Waking])
  | cas ht hm => exact h.cas ht hm
  | casFail ht =>
      refine h.client rfl ⟨rfl, rfl, rfl⟩ (fun _ hd => hd) (fun _ _ => rfl)
        (by simp [ht, ClientPc.announced]) (by simp) ?_
      exact waiting_client h.waiting rfl ⟨rfl, rfl, rfl⟩ (Nat.le_refl _) (fun _ _ => rfl)
        (by simp [ht, ClientPc.Signalling, ClientPc.Waking])
  | signal ht =>
      exact h.signal (p := .addWake _ _) (by simp [ht, ClientPc.announced]) (fun _ => trivial)
        (by simp [ht, ClientPc.Waking]) (by simp) rfl ⟨rfl, rfl, rfl, rfl, rfl⟩ rfl
  | wake ht =>
      exact h.wake (by simp [ht, ClientPc.announced]) (by simp [ht, ClientPc.Signalling]) (by simp)
        rfl ⟨rfl, rfl, rfl, rfl, rfl⟩ rfl

theorem Sleep.cancelStep (h : Sleep n s) (hs : CancelStep s t e s') : Sleep n s' := by
  cases hs with
  | call ht _ | mismatch ht _ | «match» ht _ | casFail ht _ | load ht =>
      refine h.client rfl ⟨rfl, rfl, rfl⟩ (fun _ hd => hd) (fun _ _ => rfl)
        (by simp [ht, ClientPc.announced]) (by simp) ?_
      exact waiting_client h.waiting rfl ⟨rfl, rfl, rfl⟩ (Nat.le_refl _) (fun _ _ => rfl)
        (by simp [ht, ClientPc.Signalling, ClientPc.Waking])
  | cas ht _ =>
      have hrt : ∀ x v y, ((s.setVersion x v).mem y).runTime = (s.mem y).runTime :=
        fun x v y => (Agree.setVersion s x v y).2.2.2
      refine h.client rfl ⟨rfl, rfl, rfl⟩ (fun _ hd => hd) (fun x _ => hrt _ _ x)
        (by simp [ht, ClientPc.announced]) (by simp) ?_
      exact waiting_client h.waiting rfl ⟨rfl, rfl, rfl⟩ (Nat.le_refl _) (fun x _ => hrt _ _ x)
        (by simp [ht, ClientPc.Signalling, ClientPc.Waking])

theorem Sleep.stopStep (h : Sleep n s) (hs : StopStep s t e s') : Sleep n s' := by
  cases hs with
  | call ht _ | store ht | join ht _ =>
      refine h.client rfl ⟨rfl, rfl, rfl⟩ (fun _ hd => hd) (fun _ _ => rfl)
        (by simp [ht, ClientPc.announced]) (by simp) ?_
      exact waiting_client h.waiting rfl ⟨rfl, rfl, rfl⟩ (Nat.le_refl _) (fun _ _ => rfl)
        (by simp [ht, ClientPc.Signalling, ClientPc.Waking])
  | signal ht =>
      exact h.signal (by simp [ht, ClientPc.announced]) (by simp [ht, ClientPc.Signalling])
        (by simp [ht, ClientPc.Waking]) (by simp) rfl ⟨rfl, rfl, rfl, rfl, rfl⟩ rfl
  | wake ht =>
      exact h.wake (by simp [ht, ClientPc.announced]) (by simp [ht, ClientPc.Signalling]) (by simp)
        rfl ⟨rfl, rfl, rfl, rfl, rfl⟩ rfl

theorem Sleep.step (h : Sleep n s) (ho : Owned es s) (hs : Step n s e s')
    (hfew : FewSignals s e) : Sleep n s' := by
  cases hs with
  | run hs => exact h.runStep hs hfew
  | add t hs => exact h.addStep ho hs
  | cancel t hs => exact h.cancelStep hs
  | stop t hs => exact h.stopStep hs

end Steps

/-! ## Every run -/

section Runs
variable {n : Nat} {es : List Event} {s : State ι} [DecidableEq ι]

theorem run_sleep (h : ((timerSystem n ι).when FewSignals).Run es s) : Sleep n s := by
  induction h with
  | @start s h₀ =>
      obtain ⟨_, _, _, hbucket, hmin, _, hheap, hrun, hclient, _⟩ := h₀
      refine ⟨Nat.le_of_eq hmin, fun i => ?_, fun i _ _ x hx => ?_, fun t id r m ht => ?_, ?_, ?_⟩
      · simp [hbucket, TimerBucket.empty]
      · simp [hbucket, TimerBucket.empty] at hx
      · simp [hclient] at ht
      · rw [hheap]; exact IsHeap.nil
      · simp [Waiting, hrun]
  | next hr hs ih => exact ih.step (run_owned hr.of_when) hs.1.2 hs.2

/-- Only the buckets below `bucketNumber` are used. -/
theorem run_bucket_empty (h : (timerSystem n ι).Run es s) :
    ∀ i, n ≤ i → (s.bucket i).list = [] := by
  refine h.invariant (I := fun s => ∀ i, n ≤ i → (s.bucket i).list = [])
    (fun s h₀ i _ => by simp [h₀.2.2.2.1, TimerBucket.empty]) ?_
  intro s e s' ih hs i hi
  have hother : ∀ {j : Nat} {b : TimerBucket}, j < n → (Function.update s.bucket j b i).list = [] :=
    fun hj => by rw [Function.update_of_ne (by omega)]; exact ih i hi
  cases hs.2 with
  | run hs => cases hs <;> first | exact ih i hi | exact hother (by assumption)
  | add t hs => cases hs <;> first | exact ih i hi | exact hother (by assumption)
  | cancel t hs => cases hs <;> exact ih i hi
  | stop t hs => cases hs <;> exact ih i hi

/-- While no `add_timer` is in progress and the loop runs, a timer that was added and is
not over waits for the timer thread or is in its hands. -/
theorem pending_queued (h : (timerSystem n ι).Run es s) (hquiet : ∀ t, ¬ (s.client t).Adding)
    (hpast : ¬ s.run.Past) {k : Key} {r : Nat} (hadded : Event.added k r ∈ es)
    (hover : ¬ Over es k) : Queued s k.1 ∧ (s.mem k.1).runTime = r := by
  have hown := run_owned h
  obtain ⟨⟨hpos, hstored⟩, hrt⟩ := hown.added k r hadded
  have hnback : ¬ Back s k := fun hback => by
    have hcount := (hown.back k).resolve_right fun hz => hz.2 hback
    have hmem : Event.released k ∈ es := List.count_pos_iff.mp (by omega)
    exact ((run_settled h).back k hmem).elim hover hpast
  have huses : (s.mem k.1).uses = k.2 := by
    have hle := hown.stored_le k.1
    by_contra hne
    exact hnback ⟨hpos, .inl (by omega)⟩
  have hcreated : k.1 ∈ s.created := by
    by_contra hnot
    have := hown.unused k.1 hnot
    omega
  refine ⟨?_, hrt huses⟩
  obtain ⟨pl, hpl⟩ := (hown.placed.cover k.1).mp hcreated
  cases pl with
  | bucket i => exact .inl ⟨i, hpl⟩
  | heap => exact .inr (.inl hpl)
  | run => exact .inr (.inr hpl)
  | pool => exact absurd ⟨hpos, .inr ⟨huses.symm, hpl⟩⟩ hnback
  | client t =>
      refine absurd ?_ (hquiet t)
      simp only [slotsAt] at hpl
      cases hp : s.client t <;> rw [hp] at hpl <;> trivial

/-- **No timer is slept through.**  For any clients and any order of their calls with the
timer thread: whenever the thread is blocked in `futex_wait` and no `add_timer` is in
progress, the `min_sleep_point` it computed for the wait is at or before the time of every
timer in a bucket or in the heap, and every timer that was added, was not called and was not
cancelled is one of these, with the time it was added for. -/
theorem no_timer_slept_through (h : ((timerSystem n ι).when FewSignals).Run es s)
    {signalPending minSleepPoint : Nat} (hrun : s.run = .blocked signalPending minSleepPoint)
    (hquiet : ∀ t, ¬ (s.client t).Adding) :
    (∀ x, (∃ i, x ∈ (s.bucket i).list) ∨ x ∈ s.tmHeap → minSleepPoint ≤ (s.mem x).runTime) ∧
      ∀ k r, Event.added k r ∈ es → Event.called k ∉ es →
        (∀ k', Event.cancelled k' k ∉ es) →
        ((∃ i, k.1 ∈ (s.bucket i).list) ∨ k.1 ∈ s.tmHeap) ∧ (s.mem k.1).runTime = r ∧
          minSleepPoint ≤ r := by
  have hsleep := run_sleep h
  have hw := hsleep.waiting
  simp only [Waiting, hrun] at hw
  have hmin : minSleepPoint ≤ s.minTimestamp := by
    rcases hw.2 with hmin | ⟨t, ht⟩ | ⟨t, ht⟩
    · exact hmin
    · exact absurd (by cases hp : s.client t <;> rw [hp] at ht <;> trivial) (hquiet t)
    · exact absurd (by cases hp : s.client t <;> rw [hp] at ht <;> trivial) (hquiet t)
  have hall : ∀ x, (∃ i, x ∈ (s.bucket i).list) ∨ x ∈ s.tmHeap →
      minSleepPoint ≤ (s.mem x).runTime := by
    rintro x (⟨i, hx⟩ | hx)
    · have hi : i < n := by
        by_contra hi
        rw [run_bucket_empty h.of_when i (Nat.not_lt.mp hi)] at hx
        exact absurd hx List.not_mem_nil
      rcases hsleep.covered i hi (by rw [hrun]; trivial) x hx with hle | ⟨t, r, hr, _⟩
      · exact Nat.le_trans hmin hle
      · refine absurd ?_ (hquiet t)
        cases hp : s.client t <;> rw [hp] at hr <;> trivial
    · exact hw.1 x hx
  refine ⟨hall, fun k r hadded hcalled hcancelled => ?_⟩
  obtain ⟨hq, hrt⟩ := pending_queued h.of_when hquiet (by simp [hrun, RunPc.Past]) hadded
    fun hover => hover.elim hcalled fun ⟨k', hk'⟩ => hcancelled k' hk'
  have hplace : (∃ i, k.1 ∈ (s.bucket i).list) ∨ k.1 ∈ s.tmHeap := by
    rcases hq with hq | hq | hq
    · exact .inl hq
    · exact .inr hq
    · simp [hrun, RunPc.slots] at hq
  exact ⟨hplace, hrt, hrt ▸ hall k.1 hplace⟩

/-- A timer for time 5 is added, the thread drains it into its heap at time 0 and blocks: the
sleep point is at most 5. -/
theorem no_timer_slept_through_added : ∃ es, ∃ s : State Unit,
    ((timerSystem 1 Unit).when FewSignals).Run es s ∧ Event.added (1, 1) 5 ∈ es ∧
    s.run = .blocked 1 5 ∧ 1 ∈ s.tmHeap ∧ 5 ≤ (s.mem 1).runTime := by
  have start : ((timerSystem 1 Unit).when FewSignals).Run [] (.zeroed Unit) :=
    .start (init_zeroed 1 Unit)
  have alive : ∀ tmList, RunPc.top ≠ .aborted tmList := fun _ h => nomatch h
  have held := ((start.next ⟨⟨alive, .add () (.call 5 rfl)⟩, fun _ _ h => nomatch h⟩).next
    ⟨⟨alive, .add () (.acquireNew rfl (show 0 < 1 by decide) (by decide) List.not_mem_nil)⟩,
      fun _ _ h => nomatch h⟩).next ⟨⟨alive, .add () (.write rfl)⟩, fun _ _ h => nomatch h⟩
  have queued := (held.next ⟨⟨alive, .add () (.store rfl)⟩, fun _ _ h => nomatch h⟩).next
    ⟨⟨alive, .add () (.bucket (i := 0) rfl (by decide))⟩, fun _ _ h => nomatch h⟩
  have waking := ((queued.next ⟨⟨alive, .add () (.loadMin rfl)⟩, fun _ _ h => nomatch h⟩).next
    ⟨⟨alive, .add () (.cas rfl rfl)⟩, fun _ _ h => nomatch h⟩).next
    ⟨⟨alive, .add () (.signal rfl)⟩, fun _ _ h => nomatch h⟩
  have added := (waking.next ⟨⟨alive, .add () (.wake rfl)⟩, fun _ _ h => nomatch h⟩).next
    ⟨⟨alive, .add () (.ret rfl)⟩, fun _ _ h => nomatch h⟩
  have drained := ((added.next ⟨⟨(fun _ h => nomatch h), .run (.stopNotSet rfl rfl)⟩,
    fun _ _ h => nomatch h⟩).next ⟨⟨(fun _ h => nomatch h), .run (.resetMin rfl)⟩,
    fun _ _ h => nomatch h⟩).next ⟨⟨(fun _ h => nomatch h), .run (.drain rfl (by decide))⟩,
    fun _ _ h => nomatch h⟩
  have scanned := ((drained.next ⟨⟨(fun _ h => nomatch h), .run (.scanPush rfl rfl
      (.refl [1]) fun _ => IsHeap.singleton 1)⟩, fun _ _ h => nomatch h⟩).next
    ⟨⟨(fun _ h => nomatch h), .run (.scanEnd rfl)⟩, fun _ _ h => nomatch h⟩).next
    ⟨⟨(fun _ h => nomatch h), .run (.drainEnd rfl (by decide))⟩, fun _ _ h => nomatch h⟩
  have loaded := (((scanned.next ⟨⟨(fun _ h => nomatch h), .run (.topMatch rfl rfl rfl)⟩,
    fun _ _ h => nomatch h⟩).next
    ⟨⟨(fun _ h => nomatch h), .run (.clockEarly rfl (show 5 > 0 by decide))⟩,
    fun _ _ h => nomatch h⟩).next
    ⟨⟨(fun _ h => nomatch h), .run (.loadSignal rfl)⟩, fun _ _ h => nomatch h⟩).next
    ⟨⟨(fun _ h => nomatch h), .run (.loadMin rfl)⟩, fun _ _ h => nomatch h⟩
  have run := (loaded.next ⟨⟨(fun _ h => nomatch h), .run (.decideWait rfl (show 5 > 0 by decide))⟩,
    fun _ _ h => nomatch h⟩).next ⟨⟨(fun _ h => nomatch h), .run (.waitBlock rfl rfl)⟩,
    fun _ _ h => by cases h; decide⟩
  refine ⟨_, _, run, by decide, rfl, List.mem_singleton_self 1, ?_⟩
  exact (no_timer_slept_through run rfl (fun _ h => nomatch h)).1 1
    (.inr (List.mem_singleton_self 1))

end Runs

end PBase.TimerControl
