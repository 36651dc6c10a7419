/-
# `PBase.TimerControl.Ownership` — where every slot is, and which timer it holds

A slot is in the pool, in one bucket, in the heap, in the hands of the timer thread or in
the hands of one `add_timer`, and there once.  With the slot goes the right to write it.  So:

* a slot that waits for the timer thread holds the id and the version of its current use;
* an id in the pool is the one its slot was released with;
* a client that has pushed its slot on a bucket, or holds an id, can rely on the use count
  only: the slot may have been released and used again;
* the slot of a timer was released once if a later use has begun or the slot is in the
  pool, and never otherwise.

`Owned` is the invariant; the sections below go through the steps of each party.
-/
import PBase.TimerControl.Model

namespace PBase.TimerControl

open PBase.Lib

/-! ## Where the slots are -/

/-- The slots in the hands of the timer thread. -/
def RunPc.slots : RunPc → List Nat
  | .scan _ tmList | .exit tmList | .aborted tmList => tmList
  | .scanAssert _ tmList tmp | .scanRelease _ tmList tmp => tmp :: tmList
  | .runCas tmp | .calling tmp _ | .runStore tmp _ | .runRelease tmp | .runAssert tmp _ => [tmp]
  | _ => []

/-- The slot in the hands of an `add_timer`. -/
def ClientPc.slots : ClientPc → List Nat
  | .addWrite id _ | .addStore id _ | .addBucket id _ => [low id.raw]
  | _ => []

inductive Place (ι : Type) where
  | pool
  | bucket (i : Nat)
  | heap
  | run
  | client (t : ι)

variable {ι : Type}

def slotsAt (s : State ι) : Place ι → List Nat
  | .pool => s.pool.map low
  | .bucket i => (s.bucket i).list
  | .heap => s.tmHeap
  | .run => s.run.slots
  | .client t => (s.client t).slots

/-- The slot waits for the timer thread or is in its hands. -/
def Queued (s : State ι) (x : Nat) : Prop :=
  (∃ i, x ∈ (s.bucket i).list) ∨ x ∈ s.tmHeap ∨ x ∈ s.run.slots

/-! ## Ids -/

theorem low_mkId {x : Nat} (g : Nat) (hx : x < 2 ^ 32) : low (mkId x g) = x := by
  unfold low mkId
  omega

theorem high_mkId {x : Nat} (g : Nat) (hx : x < 2 ^ 32) : high (mkId x g) = 3 * g % 2 ^ 32 := by
  unfold high mkId
  omega

theorem nextId_mkId {x : Nat} (g : Nat) (hx : x < 2 ^ 32) : nextId (mkId x g) = mkId x (g + 1) := by
  unfold nextId bump mkId
  omega

theorem nextId_new {x : Nat} (hx : x < 2 ^ 32) : nextId x = mkId x 1 := by
  unfold nextId bump mkId
  omega

/-! ## The invariant -/

section Conditions
variable (s : State ι)

/-- What can be said of an id once its timer is on its own. -/
structure Known (id : TimerId) : Prop where
  raw : id.raw = mkId (low id.raw) id.gen
  pos : 0 < id.gen
  stored : id.gen ≤ (s.mem (low id.raw)).stored

/-- The id `add_timer` has made for the slot it holds. -/
structure Held (id : TimerId) : Prop where
  raw : id.raw = mkId (low id.raw) id.gen
  gen : id.gen = (s.mem (low id.raw)).uses

/-- The fields written so far by `add_timer` are those of its timer. -/
def Written (id : TimerId) (runTime : Nat) : Prop :=
  (s.mem (low id.raw)).timerId = id.raw ∧ (s.mem (low id.raw)).runTime = runTime

def ClientOk : ClientPc → Prop
  | .addWrite id _ => Held s id ∧ (s.mem (low id.raw)).stored + 1 = id.gen
  | .addStore id runTime =>
      Held s id ∧ (s.mem (low id.raw)).stored + 1 = id.gen ∧ Written s id runTime
  | .addBucket id runTime => Held s id ∧ (s.mem (low id.raw)).stored = id.gen ∧ Written s id runTime
  | .addLoadMin id runTime | .addCas id runTime _ | .addSignal id runTime | .addWake id runTime
  | .addReturn id runTime => Known s id ∧
      ((s.mem (low id.raw)).uses = id.gen → (s.mem (low id.raw)).runTime = runTime)
  | .cancelCompare id | .cancelCas id | .cancelLoad id _ => id ∈ s.returned
  | _ => True

/-- The slot of the timer `k` has been released. -/
def Back (k : Key) : Prop :=
  0 < k.2 ∧ (k.2 < (s.mem k.1).uses ∨ (k.2 = (s.mem k.1).uses ∧ k.1 ∈ s.pool.map low))

end Conditions

structure Owned (es : List Event) (s : State ι) : Prop where
  placed : Placed (slotsAt s) (· ∈ s.created)
  lt : ∀ x ∈ s.created, x < 2 ^ 32
  used : ∀ x ∈ s.created, 0 < (s.mem x).uses
  unused : ∀ x, x ∉ s.created → (s.mem x).uses = 0 ∧ (s.mem x).stored = 0
  pool : ∀ id ∈ s.pool, id = mkId (low id) (s.mem (low id)).uses ∧
    (s.mem (low id)).stored = (s.mem (low id)).uses
  queued : ∀ x, Queued s x → (s.mem x).timerId = mkId x (s.mem x).uses ∧
    (s.mem x).stored = (s.mem x).uses
  client : ∀ t, ClientOk s (s.client t)
  returned : ∀ id ∈ s.returned, Known s id
  back : ∀ k, (es.count (.released k) = 1 ∧ Back s k) ∨
    (es.count (.released k) = 0 ∧ ¬ Back s k)
  added : ∀ k r, Event.added k r ∈ es → (0 < k.2 ∧ k.2 ≤ (s.mem k.1).stored) ∧
    ((s.mem k.1).uses = k.2 → (s.mem k.1).runTime = r)

/-! ## What a step can disturb -/

section Frame
variable {es : List Event} {s s' : State ι} {e : Event}

/-- The slot still holds the same timer, but for the version. -/
def AgreeAt (s s' : State ι) (x : Nat) : Prop :=
  (s'.mem x).uses = (s.mem x).uses ∧ (s'.mem x).stored = (s.mem x).stored ∧
    (s'.mem x).timerId = (s.mem x).timerId ∧ (s'.mem x).runTime = (s.mem x).runTime

def Agree (s s' : State ι) : Prop := ∀ x, AgreeAt s s' x

theorem Agree.of_mem (h : s'.mem = s.mem) : Agree s s' := fun x => by simp [AgreeAt, h]

theorem Agree.setVersion (s : State ι) (x v : Nat) : Agree s (s.setVersion x v) := fun y => by
  by_cases hy : y = x
  · subst hy; simp [AgreeAt, State.setVersion]
  · simp [AgreeAt, State.setVersion, Function.update_of_ne hy]

/-- Every slot holds the same timer or is in a later use. -/
def Later (s s' : State ι) : Prop :=
  ∀ x, (s.mem x).stored ≤ (s'.mem x).stored ∧
    (((s'.mem x).uses = (s.mem x).uses ∧ (s'.mem x).runTime = (s.mem x).runTime) ∨
      (s.mem x).stored < (s'.mem x).uses)

theorem Agree.later (h : Agree s s') : Later s s' := fun x =>
  ⟨Nat.le_of_eq (h x).2.1.symm, .inl ⟨(h x).1, (h x).2.2.2⟩⟩

theorem Known.later {id : TimerId} (h : Known s id) (hl : Later s s') : Known s' id :=
  ⟨h.raw, h.pos, Nat.le_trans h.stored (hl _).1⟩

theorem Later.runTime {x g r : Nat} (hl : Later s s') (hg : g ≤ (s.mem x).stored)
    (h : (s.mem x).uses = g → (s.mem x).runTime = r) :
    (s'.mem x).uses = g → (s'.mem x).runTime = r := by
  intro huses
  rcases (hl x).2 with ⟨hsame, hrt⟩ | hlt
  · rw [hrt]
    exact h (hsame ▸ huses)
  · omega

/-- A client relies on its own slot and on what a use count says. -/
theorem ClientOk.frame {p : ClientPc} (h : ClientOk s p) (hl : Later s s')
    (hret : ∀ id ∈ s.returned, id ∈ s'.returned)
    (hmem : ∀ x ∈ p.slots, AgreeAt s s' x) : ClientOk s' p := by
  have hheld : ∀ {id : TimerId}, AgreeAt s s' (low id.raw) → Held s id → Held s' id :=
    fun hag hh => ⟨hh.raw, hag.1 ▸ hh.gen⟩
  have hwritten : ∀ {id : TimerId} {r : Nat}, AgreeAt s s' (low id.raw) → Written s id r →
      Written s' id r := fun hag hw => ⟨hag.2.2.1.trans hw.1, hag.2.2.2.trans hw.2⟩
  cases p with
  | addWrite id r =>
      have hag := hmem (low id.raw) (List.mem_singleton_self _)
      exact ⟨hheld hag h.1, by rw [hag.2.1]; exact h.2⟩
  | addStore id r | addBucket id r =>
      have hag := hmem (low id.raw) (List.mem_singleton_self _)
      exact ⟨hheld hag h.1, by rw [hag.2.1]; exact h.2.1, hwritten hag h.2.2⟩
  | addLoadMin id r | addCas id r _ | addSignal id r | addWake id r | addReturn id r =>
      exact ⟨h.1.later hl, hl.runTime h.1.stored h.2⟩
  | cancelCompare id | cancelCas id | cancelLoad id _ => exact hret id h
  | idle | addAcquire _ | stopStore | stopSignal | stopWake | stopJoin => trivial

theorem count_released_snoc {k : Key} (he : e ≠ .released k) :
    (es ++ [e]).count (.released k) = es.count (.released k) := by
  rw [List.count_append, List.count_singleton, if_neg (by simpa using he), Nat.add_zero]

theorem Owned.lt_of_queued (h : Owned es s) {x : Nat} (hx : Queued s x) : x < 2 ^ 32 := by
  rcases hx with ⟨i, hx⟩ | hx | hx
  · exact h.lt x (h.placed.mem_all (p := .bucket i) hx)
  · exact h.lt x (h.placed.mem_all (p := .heap) hx)
  · exact h.lt x (h.placed.mem_all (p := .run) hx)

theorem Owned.created_of_queued (h : Owned es s) {x : Nat} (hx : Queued s x) : x ∈ s.created := by
  rcases hx with ⟨i, hx⟩ | hx | hx
  · exact h.placed.mem_all (p := .bucket i) hx
  · exact h.placed.mem_all (p := .heap) hx
  · exact h.placed.mem_all (p := .run) hx

theorem Owned.not_pool_of_queued (h : Owned es s) {x : Nat} (hx : Queued s x) :
    x ∉ s.pool.map low := fun hp => by
  rcases hx with ⟨i, hx⟩ | hx | hx
  · cases h.placed.apart (p := .bucket i) (q := .pool) hx hp
  · cases h.placed.apart (p := .heap) (q := .pool) hx hp
  · cases h.placed.apart (p := .run) (q := .pool) hx hp

/-- What was added stays true of its timer. -/
theorem Owned.added_snoc (h : Owned es s) (hl : Later s s') (he : ∀ k r, e ≠ .added k r) :
    ∀ k r, Event.added k r ∈ es ++ [e] → (0 < k.2 ∧ k.2 ≤ (s'.mem k.1).stored) ∧
      ((s'.mem k.1).uses = k.2 → (s'.mem k.1).runTime = r) := by
  intro k r hk
  rcases List.mem_append.mp hk with hk | hk
  · obtain ⟨hpos, hrt⟩ := h.added k r hk
    exact ⟨⟨hpos.1, Nat.le_trans hpos.2 (hl k.1).1⟩, hl.runTime hpos.2 hrt⟩
  · exact absurd (List.mem_singleton.mp hk).symm (he k r)

/-- The clients and the ids they have returned are left alone. -/
theorem Owned.clients_of_agree (h : Owned es s) (hag : Agree s s') (hclient : s'.client = s.client)
    (hret : s'.returned = s.returned) :
    (∀ t, ClientOk s' (s'.client t)) ∧ ∀ id ∈ s'.returned, Known s' id := by
  rw [hclient, hret]
  refine ⟨fun t => ?_, fun id hid => (h.returned id hid).later hag.later⟩
  exact (h.client t).frame hag.later (fun id hid => hret ▸ hid) fun x _ => hag x

/-! ### The timer thread -/

/-- A step of the timer thread that passes slots around among the bucket `i`, the heap and
its own hands. -/
theorem Owned.ofRun (h : Owned es s) (i : Nat) (hagree : Agree s s')
    (hsame : s'.created = s.created ∧ s'.client = s.client ∧ s'.returned = s.returned ∧
      s'.pool = s.pool)
    (hbucket : ∀ j, j ≠ i → (s'.bucket j).list = (s.bucket j).list)
    (hperm : ((s'.bucket i).list ++ (s'.tmHeap ++ s'.run.slots)).Perm
      ((s.bucket i).list ++ (s.tmHeap ++ s.run.slots)))
    (hadded : ∀ k r, e ≠ .added k r) (he : ∀ k, e ≠ .released k) : Owned (es ++ [e]) s' := by
  obtain ⟨hcreated, hclient, hret, hpool⟩ := hsame
  have hqueued : ∀ x, Queued s' x → Queued s x := by
    have hmem : ∀ x, x ∈ (s'.bucket i).list ∨ x ∈ s'.tmHeap ∨ x ∈ s'.run.slots → Queued s x := by
      intro x hx
      have := hperm.mem_iff.mp (by simpa using hx)
      rcases List.mem_append.mp this with hx | hx
      · exact .inl ⟨i, hx⟩
      · exact .inr (List.mem_append.mp hx)
    rintro x (⟨j, hx⟩ | hx)
    · by_cases hj : j = i
      · exact hmem x (.inl (hj ▸ hx))
      · exact .inl ⟨j, hbucket j hj ▸ hx⟩
    · exact hmem x (.inr hx)
  obtain ⟨hclients, hreturned⟩ := h.clients_of_agree hagree hclient hret
  refine ⟨?_, ?_, ?_, ?_, ?_, ?_, hclients, hreturned, ?_, ?_⟩
  · rw [hcreated]
    refine h.placed.redistribute [.bucket i, .heap, .run] (by simp) ?_ ?_
    · simpa [slotsAt] using hperm
    · rintro (_ | j | _ | _ | t) hp
      · simp [slotsAt, hpool]
      · have hj : j ≠ i := fun hj => hp (by simp [hj])
        simp [slotsAt, hbucket j hj]
      · simp at hp
      · simp at hp
      · simp [slotsAt, hclient]
  · rw [hcreated]; exact h.lt
  · rw [hcreated]; exact fun x hx => (hagree x).1 ▸ h.used x hx
  · rw [hcreated]
    exact fun x hx => (hagree x).1 ▸ (hagree x).2.1 ▸ h.unused x hx
  · rw [hpool]
    exact fun id hid => (hagree _).1 ▸ (hagree _).2.1 ▸ h.pool id hid
  · intro x hx
    rw [(hagree x).1, (hagree x).2.1, (hagree x).2.2.1]
    exact h.queued x (hqueued x hx)
  · intro k
    have hback : Back s' k ↔ Back s k := by rw [Back, Back, hpool, (hagree _).1]
    rw [count_released_snoc (he k), hback]
    exact h.back k
  · exact h.added_snoc hagree.later hadded

/-- The timer thread gives the slot `tmp` back to the pool. -/
theorem Owned.ofRelease (h : Owned es s) {tmp : Nat} (hmem : s'.mem = s.mem)
    (hsame : s'.created = s.created ∧ s'.client = s.client ∧ s'.returned = s.returned ∧
      s'.bucket = s.bucket)
    (hpool : s'.pool = (s.mem tmp).timerId :: s.pool)
    (hperm : (tmp :: (s'.tmHeap ++ s'.run.slots)).Perm (s.tmHeap ++ s.run.slots)) :
    Owned (es ++ [.released (s.keyOf tmp)]) s' := by
  obtain ⟨hcreated, hclient, hret, hbucket⟩ := hsame
  have hagree : Agree s s' := Agree.of_mem hmem
  have htmp : Queued s tmp :=
    .inr (List.mem_append.mp (hperm.mem_iff.mp List.mem_cons_self))
  have hcreated_tmp : tmp ∈ s.created := h.created_of_queued htmp
  have hnpool : tmp ∉ s.pool.map low := h.not_pool_of_queued htmp
  obtain ⟨hid, hstored⟩ := h.queued tmp htmp
  have hlow : low (s.mem tmp).timerId = tmp := by
    rw [hid]; exact low_mkId _ (h.lt tmp hcreated_tmp)
  have hqueued : ∀ x, Queued s' x → Queued s x := by
    rintro x (⟨j, hx⟩ | hx)
    · exact .inl ⟨j, hbucket ▸ hx⟩
    · have := hperm.mem_iff.mp (List.mem_cons_of_mem tmp (List.mem_append.mpr hx))
      exact .inr (List.mem_append.mp this)
  have hback : ∀ k, Back s' k ↔ Back s k ∨ k = s.keyOf tmp := by
    intro k
    have hpos := h.used tmp hcreated_tmp
    simp only [Back, hmem, hpool, List.map_cons, List.mem_cons, hlow, State.keyOf]
    constructor
    · rintro ⟨hk, hlt | ⟨hu, hx | hx⟩⟩
      · exact .inl ⟨hk, .inl hlt⟩
      · exact .inr (Prod.ext hx (by rw [hu, hx]))
      · exact .inl ⟨hk, .inr ⟨hu, hx⟩⟩
    · rintro (⟨hk, hlt | ⟨hu, hx⟩⟩ | rfl)
      · exact ⟨hk, .inl hlt⟩
      · exact ⟨hk, .inr ⟨hu, .inr hx⟩⟩
      · exact ⟨hpos, .inr ⟨rfl, .inl rfl⟩⟩
  have hnback : ¬ Back s (s.keyOf tmp) := by
    rintro ⟨_, hlt | ⟨_, hx⟩⟩
    · exact Nat.lt_irrefl _ hlt
    · exact hnpool hx
  obtain ⟨hclients, hreturned⟩ := h.clients_of_agree hagree hclient hret
  refine ⟨?_, ?_, ?_, ?_, ?_, ?_, hclients, hreturned, ?_, ?_⟩
  · rw [hcreated]
    refine h.placed.redistribute [.pool, .heap, .run] (by simp) ?_ ?_
    · have := hperm.append_left (s.pool.map low)
      refine .trans ?_ (by simpa [slotsAt] using this)
      simpa [slotsAt, hpool, hlow] using List.perm_middle.symm
    · rintro (_ | j | _ | _ | t) hp
      · simp at hp
      · simp [slotsAt, hbucket]
      · simp at hp
      · simp at hp
      · simp [slotsAt, hclient]
  · rw [hcreated]; exact h.lt
  · rw [hcreated, hmem]; exact h.used
  · rw [hcreated, hmem]; exact h.unused
  · rw [hpool, hmem]
    intro id hmem
    rcases List.mem_cons.mp hmem with rfl | hmem
    · rw [hlow]; exact ⟨hid, hstored⟩
    · exact h.pool id hmem
  · rw [hmem]
    exact fun x hx => h.queued x (hqueued x hx)
  · intro k
    rw [hback, List.count_append, List.count_singleton]
    by_cases hk : k = s.keyOf tmp
    · subst hk
      have hzero := (h.back (s.keyOf tmp)).resolve_left fun hb => hnback hb.2
      exact .inl ⟨by simp [hzero.1], .inr rfl⟩
    · rw [if_neg (by simpa using fun heq => hk heq.symm), Nat.add_zero]
      simpa [hk] using h.back k
  · exact h.added_snoc hagree.later fun k r => by simp

/-- A step of the timer thread that leaves all slots where they are. -/
theorem Owned.goto (h : Owned es s) {p : RunPc} (hslots : p.slots = s.run.slots)
    (hadded : ∀ k r, e ≠ .added k r) (he : ∀ k, e ≠ .released k) :
    Owned (es ++ [e]) (s.goto p) :=
  h.ofRun 0 (Agree.of_mem rfl) ⟨rfl, rfl, rfl, rfl⟩ (fun _ _ => rfl)
    (by rw [← hslots]; exact .refl _) hadded he

theorem Owned.runStep (h : Owned es s) {n : Nat} (hs : RunStep n s e s') :
    Owned (es ++ [e]) s' := by
  cases hs with
  | stopNotSet ht _ | heapEmpty ht _ | topMatch ht _ _ | topMismatch ht _ _ | clockEarly ht _
  | callReturn ht | loadSignal ht | loadMin ht | decideWait ht _ | decideNoWait ht _
  | waitBlock ht _ | waitReturn ht _ | timeout ht | runCasFail ht _ | scanEnd ht | drainEnd ht _
  | scanMismatch ht _ =>
      exact h.goto (by simp [ht, RunPc.slots]) (by simp) (by simp)
  | scanAssert ht | topAssert ht | runAssert ht | exitEnd ht =>
      exact h.goto (by rw [ht]; split <;> rfl) (by simp) (by simp)
  | stopSet ht _ =>
      exact h.ofRun 0 (Agree.of_mem rfl) ⟨rfl, rfl, rfl, rfl⟩ (fun _ _ => rfl)
        (by simp [ht, RunPc.slots]) (by simp) (by simp)
  | resetMin ht =>
      exact h.ofRun 0 (Agree.of_mem rfl) ⟨rfl, rfl, rfl, rfl⟩ (fun _ _ => rfl)
        (by simp [ht, RunPc.slots]) (by simp) (by simp)
  | @drain i ht _ =>
      refine h.ofRun i (Agree.of_mem rfl) ⟨rfl, rfl, rfl, rfl⟩
        (fun j hj => by simp [Function.update_of_ne hj]) ?_ (by simp) (by simp)
      simpa [ht, RunPc.slots, TimerBucket.empty] using List.perm_append_comm
  | scanPush ht _ hperm _ =>
      refine h.ofRun 0 (Agree.of_mem rfl) ⟨rfl, rfl, rfl, rfl⟩ (fun _ _ => rfl) ?_ (by simp)
        (by simp)
      refine List.Perm.append_left _ ((hperm.append_right _).trans ?_)
      simpa [ht, RunPc.slots] using List.perm_middle.symm
  | clockDue ht _ hheap hperm _ =>
      refine h.ofRun 0 (Agree.of_mem rfl) ⟨rfl, rfl, rfl, rfl⟩ (fun _ _ => rfl) ?_ (by simp)
        (by simp)
      refine List.Perm.append_left _ ((hperm.append_right _).trans ?_)
      simp [ht, hheap, RunPc.slots]
  | runCas ht _ | runStore ht =>
      exact h.ofRun 0 (Agree.setVersion s _ _) ⟨rfl, rfl, rfl, rfl⟩ (fun _ _ => rfl)
        (by simp [ht, RunPc.slots, State.goto, State.setVersion]) (by simp) (by simp)
  | scanRelease ht =>
      exact h.ofRelease rfl ⟨rfl, rfl, rfl, rfl⟩ rfl
        (by simpa [ht, RunPc.slots, State.release] using List.perm_middle.symm)
  | topRelease ht hheap hperm _ =>
      refine h.ofRelease rfl ⟨rfl, rfl, rfl, rfl⟩ rfl ?_
      simpa [ht, hheap, RunPc.slots, State.release] using hperm
  | runRelease ht =>
      exact h.ofRelease rfl ⟨rfl, rfl, rfl, rfl⟩ rfl
        (by simpa [ht, RunPc.slots, State.release] using (List.perm_append_singleton _ _).symm)
  | exitRelease ht =>
      exact h.ofRelease rfl ⟨rfl, rfl, rfl, rfl⟩ rfl
        (by simpa [ht, RunPc.slots, State.release] using List.perm_middle.symm)

/-! ### A client -/

variable [DecidableEq ι] {t : ι}

/-- A step of a client that writes its own slot at most. -/
theorem Owned.ofClient (h : Owned es s) {p : ClientPc}
    (hclient : s'.client = Function.update s.client t p)
    (hplaced : Placed (slotsAt s') (· ∈ s'.created))
    (hmem : ∀ x, x ∉ (s.client t).slots → x ∉ p.slots → AgreeAt s s' x) (hlater : Later s s')
    (hcreated : ∀ x, x ∈ s'.created ↔ x ∈ s.created ∨ x ∈ p.slots)
    (hlt : ∀ x ∈ p.slots, x < 2 ^ 32 ∧ 0 < (s'.mem x).uses)
    (hret : s'.returned = s.returned) (hpool : ∀ id ∈ s'.pool, id ∈ s.pool)
    (hqueued : ∀ x, Queued s' x → Queued s x ∨ ((s'.mem x).timerId = mkId x (s'.mem x).uses ∧
      (s'.mem x).stored = (s'.mem x).uses))
    (hok : ClientOk s' p) (hback : ∀ k, Back s' k ↔ Back s k)
    (hadded : ∀ k r, e ≠ .added k r) (he : ∀ k, e ≠ .released k) : Owned (es ++ [e]) s' := by
  have hold : ∀ {p : Place ι} {x}, x ∈ slotsAt s p → p ≠ .client t → x ∉ (s.client t).slots :=
    fun hx hp hmem => hp (h.placed.apart (q := .client t) hx hmem)
  have hnew : ∀ {q : Place ι} {x}, x ∈ slotsAt s' q → q ≠ .client t → x ∉ p.slots :=
    fun hx hq hmem =>
    hq (hplaced.apart (q := .client t) hx (by simpa [slotsAt, hclient] using hmem))
  refine ⟨hplaced, ?_, ?_, ?_, ?_, ?_, ?_, ?_, ?_, h.added_snoc hlater hadded⟩
  · intro x hx
    rcases (hcreated x).mp hx with hx | hx
    · exact h.lt x hx
    · exact (hlt x hx).1
  · intro x hx
    by_cases hp : x ∈ p.slots
    · exact (hlt x hp).2
    · have hx := ((hcreated x).mp hx).resolve_right hp
      rcases (hlater x).2 with ⟨heq, _⟩ | hpos
      · rw [heq]; exact h.used x hx
      · exact Nat.lt_of_le_of_lt (Nat.zero_le _) hpos
  · intro x hx
    rw [hcreated, not_or] at hx
    have hag := hmem x (fun hm => hx.1 (h.placed.mem_all (p := .client t) hm)) hx.2
    rw [hag.1, hag.2.1]
    exact h.unused x hx.1
  · intro id hid
    have hag := hmem (low id) (hold (p := .pool) (List.mem_map_of_mem (hpool id hid)) (by simp))
      (hnew (q := .pool) (List.mem_map_of_mem hid) (by simp))
    rw [hag.1, hag.2.1]
    exact h.pool id (hpool id hid)
  · intro x hx
    rcases hqueued x hx with hx' | hx'
    · have hnp : x ∉ p.slots := by
        rcases hx with ⟨i, hx⟩ | hx | hx
        · exact hnew (q := .bucket i) hx (by simp)
        · exact hnew (q := .heap) hx (by simp)
        · exact hnew (q := .run) hx (by simp)
      have hop : x ∉ (s.client t).slots := by
        rcases hx' with ⟨i, hx⟩ | hx | hx
        · exact hold (p := .bucket i) hx (by simp)
        · exact hold (p := .heap) hx (by simp)
        · exact hold (p := .run) hx (by simp)
      have hag := hmem x hop hnp
      rw [hag.1, hag.2.1, hag.2.2.1]
      exact h.queued x hx'
    · exact hx'
  · intro u
    by_cases hu : u = t
    · subst hu; rwa [hclient, Function.update_self]
    · rw [hclient, Function.update_of_ne hu]
      refine (h.client u).frame hlater (fun id hid => hret ▸ hid) fun x hx => hmem x ?_ ?_
      · exact hold (p := .client u) hx (by simpa using hu)
      · refine hnew (q := .client u) ?_ (by simpa using hu)
        simpa [slotsAt, hclient, Function.update_of_ne hu] using hx
  · rw [hret]
    exact fun id hid => (h.returned id hid).later hlater
  · intro k
    rw [count_released_snoc (he k), hback]
    exact h.back k

theorem wake_slots (p : RunPc) : p.wake.slots = p.slots := by cases p <;> rfl

variable (s') in
/-- A step of a client that moves no slot and writes nothing but versions. -/
theorem Owned.ofMove (h : Owned es s) {p : ClientPc} (hagree : Agree s s')
    (hclient : s'.client = Function.update s.client t p)
    (hsame : s'.created = s.created ∧ s'.pool = s.pool ∧ s'.bucket = s.bucket ∧
      s'.tmHeap = s.tmHeap ∧ s'.run.slots = s.run.slots ∧ s'.returned = s.returned)
    (hslots : (s.client t).slots = [] ∧ p.slots = []) (hok : ClientOk s p)
    (hadded : ∀ k r, e ≠ .added k r) (he : ∀ k, e ≠ .released k) : Owned (es ++ [e]) s' := by
  obtain ⟨hcreated, hpool, hbucket, hheap, hrun, hret⟩ := hsame
  have hplaced : slotsAt s' = slotsAt s := by
    funext pl
    cases pl with
    | client u =>
        by_cases hu : u = t
        · subst hu; simp [slotsAt, hclient, hslots]
        · simp [slotsAt, hclient, Function.update_of_ne hu]
    | pool | bucket i | heap | run => simp [slotsAt, hpool, hbucket, hheap, hrun]
  refine h.ofClient hclient (by rw [hplaced, hcreated]; exact h.placed) (fun x _ _ => hagree x)
    hagree.later (by simp [hcreated, hslots]) (by simp [hslots]) hret (by simp [hpool]) ?_ ?_ ?_
    hadded he
  · exact fun x hx => .inl (by rwa [Queued, hbucket, hheap, hrun] at hx)
  · exact hok.frame hagree.later (fun id hid => hret ▸ hid) fun x _ => hagree x
  · exact fun k => by rw [Back, Back, hpool, (hagree _).1]

variable (s') in
/-- Where the slots are after a step of a client that passes them around among the pool, a
bucket and its own hands. -/
theorem Owned.placed_client (h : Owned es s) {p : ClientPc} (i : Nat) {xs : List Nat}
    (hclient : s'.client = Function.update s.client t p)
    (hbucket : ∀ j, j ≠ i → (s'.bucket j).list = (s.bucket j).list)
    (hheap : s'.tmHeap = s.tmHeap) (hrun : s'.run = s.run) (hxs : xs.Nodup)
    (hnew : ∀ x ∈ xs, x ∉ s.created)
    (hperm : (s'.pool.map low ++ ((s'.bucket i).list ++ p.slots)).Perm
      (xs ++ (s.pool.map low ++ ((s.bucket i).list ++ (s.client t).slots)))) :
    Placed (slotsAt s') (fun x => x ∈ xs ∨ x ∈ s.created) := by
  refine h.placed.create [.pool, .bucket i, .client t] hxs hnew (by simp) ?_ ?_
  · simpa [slotsAt, hclient] using hperm
  · rintro (_ | j | _ | _ | u) hp
    · simp at hp
    · have hj : j ≠ i := fun hj => hp (by simp [hj])
      simp [slotsAt, hbucket j hj]
    · simp [slotsAt, hheap]
    · simp [slotsAt, hrun]
    · have hu : u ≠ t := fun hu => hp (by simp [hu])
      simp [slotsAt, hclient, Function.update_of_ne hu]

/-- A released slot is acquired: its next use begins. -/
theorem Owned.acquire (h : Owned es s) {r poolId : Nat} (ht : s.client t = .addAcquire r)
    (hid : poolId ∈ s.pool) :
    Owned (es ++ [.tau]) { s with
      pool := s.pool.erase poolId
      mem := Function.update s.mem (low poolId)
        { s.mem (low poolId) with uses := (s.mem (low poolId)).uses + 1 }
      client := Function.update s.client t
        (.addWrite ⟨nextId poolId, (s.mem (low poolId)).uses + 1⟩ r) } := by
  have hmem : low poolId ∈ slotsAt s .pool := List.mem_map_of_mem hid
  have hcreated := h.placed.mem_all hmem
  have hlt := h.lt _ hcreated
  obtain ⟨hraw, hstored⟩ := h.pool _ hid
  have hnext : nextId poolId = mkId (low poolId) ((s.mem (low poolId)).uses + 1) :=
    (congrArg nextId hraw).trans (nextId_mkId _ hlt)
  have hlow : low (nextId poolId) = low poolId := by rw [hnext, low_mkId _ hlt]
  have hnodup : (low poolId :: (s.pool.erase poolId).map low).Nodup :=
    (((List.perm_cons_erase hid).map low).nodup_iff).mp (h.placed.nodup .pool)
  refine h.ofClient rfl ?_ (fun x _ hx => ?_) (fun x => ?_) (fun x => ?_) (fun x hx => ?_) rfl
    (fun id hid' => List.mem_of_mem_erase hid') (fun x hx => .inl hx) ?_ (fun k => ?_)
    (by simp) (by simp)
  · have hplaced := h.placed_client (t := t) { s with
      pool := s.pool.erase poolId
      mem := Function.update s.mem (low poolId)
        { s.mem (low poolId) with uses := (s.mem (low poolId)).uses + 1 }
      client := Function.update s.client t
        (.addWrite ⟨nextId poolId, (s.mem (low poolId)).uses + 1⟩ r) }
      0 rfl (fun _ _ => rfl) rfl rfl List.nodup_nil (by simp) ?_
    · simpa using hplaced
    · have hperm := (List.perm_cons_erase hid).map low
      simp only [List.map_cons] at hperm
      simp only [ht, ClientPc.slots, hlow, List.append_nil, List.nil_append]
      rw [← List.append_assoc]
      refine (List.perm_append_singleton _ _).trans ?_
      exact hperm.symm.append_right _
  · have hne : x ≠ low poolId := fun heq => hx (by simp [ClientPc.slots, hlow, heq])
    simp [AgreeAt, Function.update_of_ne hne]
  · by_cases hx : x = low poolId
    · subst hx; simp [hstored]
    · simp [Function.update_of_ne hx]
  · simp only [ClientPc.slots, hlow, List.mem_singleton]
    exact ⟨.inl, fun hx => hx.elim id fun hx => hx ▸ hcreated⟩
  · simp only [ClientPc.slots, hlow, List.mem_singleton] at hx
    subst hx
    exact ⟨hlt, by simp⟩
  · refine ⟨⟨?_, ?_⟩, ?_⟩
    · simp only [hlow]; exact hnext
    · simp [hlow]
    · simp [hlow, hstored]
  · simp only [Back]
    by_cases hk : k.1 = low poolId
    · have hnot : k.1 ∉ (s.pool.erase poolId).map low := hk ▸ (List.nodup_cons.mp hnodup).1
      rw [hk] at hnot ⊢
      simp only [Function.update_self, hnot, and_false, or_false]
      have := List.mem_map_of_mem (f := low) hid
      simp only [this, and_true]
      omega
    · rw [Function.update_of_ne hk]
      have hiff : k.1 ∈ (s.pool.erase poolId).map low ↔ k.1 ∈ s.pool.map low := by
        rw [((List.perm_cons_erase hid).map low).mem_iff, List.map_cons, List.mem_cons]
        exact ⟨.inr, fun hx => hx.resolve_left hk⟩
      rw [hiff]

/-- A slot that was never used is acquired. -/
theorem Owned.acquireNew (h : Owned es s) {r slot : Nat} (ht : s.client t = .addAcquire r)
    (hlt : slot < 2 ^ 32) (hnew : slot ∉ s.created) :
    Owned (es ++ [.tau]) { s with
      created := slot :: s.created
      mem := Function.update s.mem slot { s.mem slot with uses := (s.mem slot).uses + 1 }
      client := Function.update s.client t
        (.addWrite ⟨nextId slot, (s.mem slot).uses + 1⟩ r) } := by
  obtain ⟨huses, hstored⟩ := h.unused slot hnew
  have hlow : low (nextId slot) = slot := by rw [nextId_new hlt, low_mkId _ hlt]
  refine h.ofClient rfl ?_ (fun x _ hx => ?_) (fun x => ?_) (fun x => ?_) (fun x hx => ?_) rfl
    (fun id hid' => hid') (fun x hx => .inl hx) ?_ (fun k => ?_) (by simp) (by simp)
  · have hplaced := h.placed_client (t := t) { s with
      created := slot :: s.created
      mem := Function.update s.mem slot { s.mem slot with uses := (s.mem slot).uses + 1 }
      client := Function.update s.client t
        (.addWrite ⟨nextId slot, (s.mem slot).uses + 1⟩ r) }
      0 rfl (fun _ _ => rfl) rfl rfl (List.nodup_singleton slot) (by simpa using hnew) ?_
    · simpa using hplaced
    · simp only [ht, ClientPc.slots, hlow, List.append_nil]
      rw [← List.append_assoc]
      exact List.perm_append_comm
  · have hne : x ≠ slot := fun heq => hx (by simp [ClientPc.slots, hlow, heq])
    simp [AgreeAt, Function.update_of_ne hne]
  · by_cases hx : x = slot
    · subst hx; simp [hstored]
    · simp [Function.update_of_ne hx]
  · simp [ClientPc.slots, hlow, or_comm]
  · simp only [ClientPc.slots, hlow, List.mem_singleton] at hx
    subst hx
    exact ⟨hlt, by simp⟩
  · refine ⟨⟨?_, ?_⟩, ?_⟩
    · simp only [hlow, huses]; exact nextId_new hlt
    · simp [hlow]
    · simp [hlow, hstored, huses]
  · simp only [Back]
    by_cases hk : k.1 = slot
    · have hnot : slot ∉ s.pool.map low := fun hx => hnew (h.placed.mem_all (p := .pool) hx)
      simp only [hk, Function.update_self, huses, hnot, and_false, or_false]
      omega
    · rw [Function.update_of_ne hk]

/-- A client writes to the timer in its hands, and keeps it. -/
theorem Owned.fill (h : Owned es s) {x : Nat} {m : Timer} {p : ClientPc}
    (hold : (s.client t).slots = [x]) (hnew : p.slots = [x]) (huses : m.uses = (s.mem x).uses)
    (hstored : (s.mem x).stored ≤ m.stored)
    (hlater : m.runTime = (s.mem x).runTime ∨ (s.mem x).stored < m.uses)
    (hok : ClientOk { s with
      mem := Function.update s.mem x m
      client := Function.update s.client t p } p) :
    Owned (es ++ [.tau]) { s with
      mem := Function.update s.mem x m
      client := Function.update s.client t p } := by
  have hmem : x ∈ slotsAt s (.client t) := by simp [slotsAt, hold]
  have hcreated := h.placed.mem_all hmem
  refine h.ofClient rfl ?_ (fun y hy _ => ?_) (fun y => ?_) (fun y => ?_) (fun y hy => ?_) rfl
    (fun id hid => hid) (fun y hy => .inl hy) hok (fun k => ?_) (by simp) (by simp)
  · have hplaced := h.placed_client (t := t) { s with
      mem := Function.update s.mem x m
      client := Function.update s.client t p }
      0 rfl (fun _ _ => rfl) rfl rfl List.nodup_nil (by simp) (by simp [hold, hnew])
    simpa using hplaced
  · have hne : y ≠ x := fun heq => hy (by simp [hold, heq])
    simp [AgreeAt, Function.update_of_ne hne]
  · by_cases hy : y = x
    · subst hy
      simp only [Function.update_self]
      exact ⟨hstored, hlater.imp (fun hr => ⟨huses, hr⟩) id⟩
    · simp [Function.update_of_ne hy]
  · rw [hnew, List.mem_singleton]
    exact ⟨.inl, fun hy => hy.elim (fun hy => hy) fun hy => hy ▸ hcreated⟩
  · rw [hnew, List.mem_singleton] at hy
    subst hy
    exact ⟨h.lt _ hcreated, by simpa [huses] using h.used _ hcreated⟩
  · simp only [Back]
    by_cases hk : k.1 = x
    · simp [hk, huses]
    · rw [Function.update_of_ne hk]

/-- The fields of the timer are written. -/
theorem Owned.write (h : Owned es s) {id : TimerId} {r : Nat} (ht : s.client t = .addWrite id r) :
    Owned (es ++ [.tau]) { s with
      mem := Function.update s.mem (low id.raw)
        { s.mem (low id.raw) with timerId := id.raw, runTime := r }
      client := Function.update s.client t (.addStore id r) } := by
  have hok : Held s id ∧ (s.mem (low id.raw)).stored + 1 = id.gen := by
    have := h.client t; rwa [ht] at this
  have hgen := hok.1.gen
  refine h.fill (by rw [ht]; rfl) rfl rfl (Nat.le_refl _) (.inr ?_) ⟨⟨hok.1.raw, ?_⟩, ?_, ?_⟩
  · show (s.mem (low id.raw)).stored < (s.mem (low id.raw)).uses
    omega
  · simpa using hgen
  · simpa using hok.2
  · simp [Written]

/-- `version.store`: from now on the version is the timer's. -/
theorem Owned.store (h : Owned es s) {id : TimerId} {r v : Nat}
    (ht : s.client t = .addStore id r) :
    Owned (es ++ [.tau]) { s with
      mem := Function.update s.mem (low id.raw)
        { s.mem (low id.raw) with version := v, stored := id.gen }
      client := Function.update s.client t (.addBucket id r) } := by
  have hok : Held s id ∧ (s.mem (low id.raw)).stored + 1 = id.gen ∧ Written s id r := by
    have := h.client t; rwa [ht] at this
  have hstored := hok.2.1
  refine h.fill (by rw [ht]; rfl) rfl rfl ?_ (.inl rfl) ⟨⟨hok.1.raw, ?_⟩, ?_, ?_⟩
  · show (s.mem (low id.raw)).stored ≤ id.gen
    omega
  · simpa using hok.1.gen
  · simp
  · simpa [Written] using hok.2.2

theorem addTimer_list (b : TimerBucket) (x r : Nat) : (b.addTimer x r).2.list = x :: b.list := by
  unfold TimerBucket.addTimer
  split <;> rfl

/-- The slot goes to a bucket, and the timer is on its own. -/
theorem Owned.bucket (h : Owned es s) {id : TimerId} {r i : Nat} {p : ClientPc}
    (ht : s.client t = .addBucket id r) (hp : p = .addReturn id r ∨ p = .addLoadMin id r) :
    Owned (es ++ [.tau]) { s with
      bucket := Function.update s.bucket i ((s.bucket i).addTimer (low id.raw) r).2
      client := Function.update s.client t p } := by
  have hok : Held s id ∧ (s.mem (low id.raw)).stored = id.gen ∧ Written s id r := by
    have := h.client t; rwa [ht] at this
  have hmem : low id.raw ∈ slotsAt s (.client t) := by simp [slotsAt, ht, ClientPc.slots]
  have hslots : p.slots = [] := by rcases hp with rfl | rfl <;> rfl
  have hpos : 0 < id.gen := hok.1.gen ▸ h.used _ (h.placed.mem_all hmem)
  refine h.ofClient rfl ?_ (fun x _ _ => ⟨rfl, rfl, rfl, rfl⟩)
    (fun x => ⟨Nat.le_refl _, .inl ⟨rfl, rfl⟩⟩) (by simp [hslots]) (by simp [hslots]) rfl
    (fun id hid' => hid') ?_ ?_ (fun k => .rfl) (by simp) (by simp)
  · have hplaced := h.placed_client (t := t) { s with
      bucket := Function.update s.bucket i ((s.bucket i).addTimer (low id.raw) r).2
      client := Function.update s.client t p }
      i rfl (fun j hj => by simp [Function.update_of_ne hj]) rfl rfl List.nodup_nil (by simp) ?_
    · simpa using hplaced
    · rw [hslots]
      simp only [ht, ClientPc.slots, Function.update_self, addTimer_list, List.append_nil,
        List.nil_append]
      exact (List.perm_append_singleton _ _).symm.append_left _
  · rintro x (⟨j, hx⟩ | hx)
    · by_cases hj : j = i
      · subst hj
        simp only [Function.update_self, addTimer_list, List.mem_cons] at hx
        rcases hx with rfl | hx
        · right
          simp only
          rw [hok.2.2.1, ← hok.1.gen]
          exact ⟨hok.1.raw, hok.2.1⟩
        · exact .inl (.inl ⟨j, hx⟩)
      · simp only [Function.update_of_ne hj] at hx
        exact .inl (.inl ⟨j, hx⟩)
    · exact .inl (.inr hx)
  · have hknown : Known s id := ⟨hok.1.raw, hpos, Nat.le_of_eq hok.2.1.symm⟩
    rcases hp with rfl | rfl <;>
      exact ⟨⟨hknown.raw, hknown.pos, hknown.stored⟩, fun _ => hok.2.2.2⟩

/-- `add_timer` returns. -/
theorem Owned.ret (h : Owned es s) {id : TimerId} {r : Nat} (ht : s.client t = .addReturn id r) :
    Owned (es ++ [.added id.key r]) { s with
      returned := id :: s.returned
      client := Function.update s.client t .idle } := by
  have hok : Known s id ∧
      ((s.mem (low id.raw)).uses = id.gen → (s.mem (low id.raw)).runTime = r) := by
    have := h.client t; rwa [ht] at this
  have hmove := h.ofMove { s with
      client := Function.update s.client t .idle } (t := t) (p := .idle) (e := .tau)
    (Agree.of_mem rfl) rfl ⟨rfl, rfl, rfl, rfl, rfl, rfl⟩ ⟨by simp [ht, ClientPc.slots], rfl⟩
    trivial (by simp) (by simp)
  refine ⟨hmove.placed, hmove.lt, hmove.used, hmove.unused, hmove.pool, hmove.queued,
    fun u => ?_, fun id' hid => ?_, fun k => ?_, fun k r' hk => ?_⟩
  · exact (hmove.client u).frame (Agree.of_mem rfl).later
      (fun _ hid => List.mem_cons_of_mem _ hid) fun _ _ => ⟨rfl, rfl, rfl, rfl⟩
  · rcases List.mem_cons.mp hid with rfl | hid
    · exact ⟨hok.1.raw, hok.1.pos, hok.1.stored⟩
    · exact (hmove.returned id' hid).later (Agree.of_mem rfl).later
  · rw [count_released_snoc (by simp)]
    have := hmove.back k
    rwa [count_released_snoc (by simp)] at this
  · rcases List.mem_append.mp hk with hk | hk
    · exact hmove.added k r' (List.mem_append_left _ hk)
    · cases List.mem_singleton.mp hk
      exact ⟨⟨hok.1.pos, hok.1.stored⟩, hok.2⟩

theorem Owned.addStep (h : Owned es s) {n : Nat} (hs : AddStep n s t e s') :
    Owned (es ++ [e]) s' := by
  cases hs with
  | call _ ht | casFail ht =>
      have hok := h.client t
      rw [ht] at hok
      exact h.ofMove _ (Agree.of_mem rfl) rfl ⟨rfl, rfl, rfl, rfl, rfl, rfl⟩
        ⟨by simp [ht, ClientPc.slots], rfl⟩ hok (by simp) (by simp)
  | acquire ht hid => exact h.acquire ht hid
  | acquireNew ht _ hlt hnew => exact h.acquireNew ht hlt hnew
  | write ht => exact h.write ht
  | store ht => exact h.store ht
  | bucket ht _ => exact h.bucket ht (by split <;> simp)
  | loadMin ht =>
      have hok := h.client t
      rw [ht] at hok
      refine h.ofMove _ (Agree.of_mem rfl) rfl ⟨rfl, rfl, rfl, rfl, rfl, rfl⟩
        ⟨by simp [ht, ClientPc.slots], by split <;> rfl⟩ ?_ (by simp) (by simp)
      split <;> exact hok
  | cas ht _ | signal ht =>
      have hok := h.client t
      rw [ht] at hok
      exact h.ofMove _ (Agree.of_mem rfl) rfl ⟨rfl, rfl, rfl, rfl, rfl, rfl⟩
        ⟨by simp [ht, ClientPc.slots], rfl⟩ hok (by simp) (by simp)
  | wake ht =>
      have hok := h.client t
      rw [ht] at hok
      exact h.ofMove _ (Agree.of_mem rfl) rfl ⟨rfl, rfl, rfl, rfl, wake_slots _, rfl⟩
        ⟨by simp [ht, ClientPc.slots], rfl⟩ hok (by simp) (by simp)
  | ret ht => exact h.ret ht

theorem Owned.cancelStep (h : Owned es s) (hs : CancelStep s t e s') : Owned (es ++ [e]) s' := by
  have hok := h.client t
  cases hs with
  | call ht hid =>
      exact h.ofMove _ (Agree.of_mem rfl) rfl ⟨rfl, rfl, rfl, rfl, rfl, rfl⟩
        ⟨by simp [ht, ClientPc.slots], rfl⟩ hid (by simp) (by simp)
  | mismatch ht _ | «match» ht _ | casFail ht _ | load ht =>
      rw [ht] at hok
      exact h.ofMove _ (Agree.of_mem rfl) rfl ⟨rfl, rfl, rfl, rfl, rfl, rfl⟩
        ⟨by simp [ht, ClientPc.slots], rfl⟩ (by first | exact hok | trivial) (by simp) (by simp)
  | cas ht _ =>
      exact h.ofMove _ (Agree.setVersion s _ _) rfl ⟨rfl, rfl, rfl, rfl, rfl, rfl⟩
        ⟨by simp [ht, ClientPc.slots], rfl⟩ trivial (by simp) (by simp)

theorem Owned.stopStep (h : Owned es s) (hs : StopStep s t e s') : Owned (es ++ [e]) s' := by
  cases hs with
  | call ht _ | store ht | signal ht | join ht _ =>
      exact h.ofMove _ (Agree.of_mem rfl) rfl ⟨rfl, rfl, rfl, rfl, rfl, rfl⟩
        ⟨by simp [ht, ClientPc.slots], rfl⟩ trivial (by simp) (by simp)
  | wake ht =>
      exact h.ofMove _ (Agree.of_mem rfl) rfl ⟨rfl, rfl, rfl, rfl, wake_slots _, rfl⟩
        ⟨by simp [ht, ClientPc.slots], rfl⟩ trivial (by simp) (by simp)

theorem Owned.step (h : Owned es s) {n : Nat} (hs : Step n s e s') : Owned (es ++ [e]) s' := by
  cases hs with
  | run hs => exact h.runStep hs
  | add t hs => exact h.addStep hs
  | cancel t hs => exact h.cancelStep hs
  | stop t hs => exact h.stopStep hs

/-! ### What a client leaves to the timer thread -/

/-- A step of a client. -/
inductive ClientStep (n : Nat) (s : State ι) (e : Event) (s' : State ι) : Prop
  | add (t : ι) : AddStep n s t e s' → ClientStep n s e s'
  | cancel (t : ι) : CancelStep s t e s' → ClientStep n s e s'
  | stop (t : ι) : StopStep s t e s' → ClientStep n s e s'

theorem Step.run_or_client {n : Nat} (hs : Step n s e s') : RunStep n s e s' ∨
    ClientStep n s e s' := by
  cases hs with
  | run hs => exact .inl hs
  | add t hs => exact .inr (.add t hs)
  | cancel t hs => exact .inr (.cancel t hs)
  | stop t hs => exact .inr (.stop t hs)

/-- The timer thread is where it was, or woken; it has what it had, and the timers that wait for
it are the same. -/
structure Outside (s : State ι) (e : Event) (s' : State ι) : Prop where
  run : s'.run = s.run ∨ s'.run = s.run.wake
  heap : s'.tmHeap = s.tmHeap
  same : ∀ x, Queued s x → (s'.mem x).uses = (s.mem x).uses ∧ (s'.mem x).runTime = (s.mem x).runTime
  event : ∀ k, e ≠ .called k ∧ e ≠ .finished k ∧ e ≠ .released k

omit [DecidableEq ι] in
theorem Outside.of_update {m : Timer} {y : Nat} (hmem : s'.mem = Function.update s.mem y m)
    (hrun : s'.run = s.run) (hheap : s'.tmHeap = s.tmHeap)
    (hm : ¬ Queued s y ∨ m.uses = (s.mem y).uses ∧ m.runTime = (s.mem y).runTime)
    (he : ∀ k, e ≠ .called k ∧ e ≠ .finished k ∧ e ≠ .released k) : Outside s e s' := by
  refine ⟨.inl hrun, hheap, fun x hx => ?_, he⟩
  rw [hmem]
  rcases eq_or_ne x y with rfl | hne
  · rw [Function.update_self]
    exact hm.resolve_left (not_not.mpr hx)
  · rw [Function.update_of_ne hne]
    exact ⟨rfl, rfl⟩

omit [DecidableEq ι] in
/-- What an `add_timer` holds does not wait for the timer thread. -/
theorem Owned.not_queued_of_client (h : Owned es s) {x : Nat} (hx : x ∈ (s.client t).slots) :
    ¬ Queued s x := by
  rintro (⟨i, hq⟩ | hq | hq)
  · cases h.placed.apart (p := .bucket i) (q := .client t) hq hx
  · cases h.placed.apart (p := .heap) (q := .client t) hq hx
  · cases h.placed.apart (p := .run) (q := .client t) hq hx

theorem Owned.outside (h : Owned es s) {n : Nat} (hs : ClientStep n s e s') : Outside s e s' := by
  cases hs with
  | add t hs =>
      cases hs with
      | call _ _ | bucket _ _ | loadMin _ | cas _ _ | casFail _ | signal _ | ret _ =>
          exact ⟨.inl rfl, rfl, fun _ _ => ⟨rfl, rfl⟩, by simp⟩
      | wake _ => exact ⟨.inr rfl, rfl, fun _ _ => ⟨rfl, rfl⟩, by simp⟩
      | acquire _ hid =>
          exact .of_update rfl rfl rfl (.inl fun hq =>
            h.not_pool_of_queued hq (List.mem_map_of_mem hid)) (by simp)
      | acquireNew _ _ _ hnew =>
          exact .of_update rfl rfl rfl (.inl fun hq => hnew (h.created_of_queued hq)) (by simp)
      | write ht =>
          exact .of_update rfl rfl rfl (.inl (h.not_queued_of_client (t := t)
            (by simp [ht, ClientPc.slots]))) (by simp)
      | store _ => exact .of_update rfl rfl rfl (.inr ⟨rfl, rfl⟩) (by simp)
  | cancel t hs =>
      cases hs with
      | call _ _ | mismatch _ _ | «match» _ _ | casFail _ _ | load _ =>
          exact ⟨.inl rfl, rfl, fun _ _ => ⟨rfl, rfl⟩, by simp⟩
      | cas _ _ => exact .of_update rfl rfl rfl (.inr ⟨rfl, rfl⟩) (by simp)
  | stop t hs =>
      cases hs with
      | call _ _ | store _ | signal _ | join _ _ =>
          exact ⟨.inl rfl, rfl, fun _ _ => ⟨rfl, rfl⟩, by simp⟩
      | wake _ => exact ⟨.inr rfl, rfl, fun _ _ => ⟨rfl, rfl⟩, by simp⟩

end Frame

/-! ## Every run -/

/-- In every run, `Owned` holds of the history and the state. -/
theorem run_owned [DecidableEq ι] {n : Nat} {es : List Event} {s : State ι}
    (h : (timerSystem n ι).Run es s) : Owned es s := by
  induction h with
  | @start s h₀ =>
      obtain ⟨hmem, hpool, hcreated, hbucket, _, _, hheap, hrun, hclient, hret, _, _⟩ := h₀
      have hslots : ∀ pl, slotsAt s pl = [] := by
        rintro (_ | i | _ | _ | t) <;>
          simp [slotsAt, hpool, hbucket, TimerBucket.empty, hheap, hrun, hclient, RunPc.slots,
            ClientPc.slots]
      refine ⟨⟨?_, ?_, ?_⟩, ?_, ?_, fun x _ => hmem x, ?_, ?_, ?_, ?_, ?_, ?_⟩
      · simp [hslots]
      · intro p q x hx
        simp [hslots] at hx
      · simp [hslots, hcreated]
      · simp [hcreated]
      · simp [hcreated]
      · simp [hpool]
      · rintro x (⟨i, hx⟩ | hx | hx)
        · simp [hbucket, TimerBucket.empty] at hx
        · simp [hheap] at hx
        · simp [hrun, RunPc.slots] at hx
      · exact fun t => by rw [hclient]; trivial
      · simp [hret]
      · refine fun k => .inr ⟨rfl, ?_⟩
        rintro ⟨hpos, hlt | ⟨heq, _⟩⟩ <;> have := (hmem k.1).1 <;> omega
      · exact fun k r hk => absurd hk List.not_mem_nil
  | next _ hs ih => exact ih.step hs.2

end PBase.TimerControl
