/-
# `PBase.Socket.Ownership` — who has a descriptor

What is asked of a class that owns a descriptor: every descriptor an object obtained is owned by
one object, or was released to the caller, or was closed once.  `Connect`, `Accept`, `reset`
and the destructor close what they give up, and `release` hands it over.  Two functions forget
it: `Listen` puts a new descriptor in `fd_` without closing the old one, and `Shutdown`, if
`shutdown` succeeds, sets `fd_` to -1 without closing anything.  Both are harmless for an
object without a descriptor (`Frugal`).

`Accounted` says so in the words of `Fate`.  The calls are made of three changes, each
with its lemma: an object gives its descriptor up, gets one, or stays without.
-/
import PBase.Socket.Model

namespace PBase.Socket

open PBase.Lib

variable {ι : Type}

/-- `Listen` and a successful `Shutdown` are called on objects without a descriptor. -/
def Frugal (s : State ι) : Op ι → Prop
  | .listen i _ _ _ => ∀ fd, s.fd i = some fd → fd < 0
  | .shutdown i (.ok _) => ∀ fd, s.fd i = some fd → fd < 0
  | _ => True

/-- A descriptor that is held has one owner, the others have none; none is closed by an object
that does not hold it. -/
structure Accounted (s : State ι) : Prop where
  held : ∀ fd, 0 ≤ fd → s.fate fd = .held → ∃! i, s.fd i = some fd
  others : ∀ fd, 0 ≤ fd → s.fate fd ≠ .held → ∀ i, s.fd i ≠ some fd
  good : ∀ fd, s.fate fd ≠ .bad

/-- Without a descriptor. -/
def Idle (fd : Option Int) : Prop := ∀ n, fd = some n → n < 0

theorem idle_some {n : Int} (h : n < 0) : Idle (some n) := by
  intro m hm
  cases hm
  exact h

theorem State.set_self [DecidableEq ι] (s : State ι) (i : ι) (x : Option Int) (es : List Event) :
    (s.set i x es).fd i = x := Function.update_self ..

theorem State.set_of_ne [DecidableEq ι] (s : State ι) {i j : ι} (h : j ≠ i) (x : Option Int)
    (es : List Event) : (s.set i x es).fd j = s.fd j := Function.update_of_ne h ..

namespace Accounted

variable {s t : State ι} {i : ι} {n : Int}

theorem owner (h : Accounted s) (hi : s.fd i = some n) (hn : 0 ≤ n) : s.fate n = .held :=
  Classical.byContradiction fun hne => h.others n hn hne i hi

theorem owner_unique (h : Accounted s) {j : ι} (hi : s.fd i = some n) (hj : s.fd j = some n)
    (hn : 0 ≤ n) : i = j :=
  (h.held n hn (h.owner hi hn)).unique hi hj

/-- A descriptor of the caller's, or of nobody's, changes hands outside. -/
theorem outside (h : Accounted s) (hn : s.fate n ≠ .held) {f : Fate} (hf : f ≠ .held)
    (hbad : f ≠ .bad) : Accounted ⟨s.fd, Function.update s.fate n f⟩ := by
  have hsame : ∀ m, m ≠ n → Function.update s.fate n f m = s.fate m := fun m hm =>
    Function.update_of_ne hm ..
  refine ⟨fun m hm hheld => ?_, fun m hm hne => ?_, fun m => ?_⟩
  · rcases eq_or_ne m n with rfl | hmn
    · exact absurd ((Function.update_self ..).symm.trans hheld) hf
    · exact h.held m hm ((hsame m hmn).symm.trans hheld)
  · rcases eq_or_ne m n with rfl | hmn
    · exact h.others m hm hn
    · exact h.others m hm ((hsame m hmn) ▸ hne)
  · show Function.update s.fate n f m ≠ .bad
    rcases eq_or_ne m n with rfl | hmn
    · rwa [Function.update_self]
    · rw [hsame m hmn]
      exact h.good m

variable [DecidableEq ι]

/-- The object `i` changes its descriptor, and others keep their fate. -/
theorem change (h : Accounted s) {x : Option Int} {f : Int → Fate}
    (hold : ∀ m, 0 ≤ m → s.fd i = some m → x ≠ some m → f m ≠ .held)
    (hnew : ∀ m, 0 ≤ m → x = some m → f m = .held ∧ ∀ j, j ≠ i → s.fd j ≠ some m)
    (hrest : ∀ m, 0 ≤ m → s.fd i ≠ some m → x ≠ some m → f m = s.fate m)
    (hgood : ∀ m, f m ≠ .bad) : Accounted ⟨Function.update s.fd i x, f⟩ := by
  have hself : Function.update s.fd i x i = x := Function.update_self ..
  have hother : ∀ j, j ≠ i → Function.update s.fd i x j = s.fd j := fun j hj =>
    Function.update_of_ne hj ..
  refine ⟨fun m hm hheld => ?_, fun m hm hne j hj => ?_, hgood⟩
  · rcases eq_or_ne x (some m) with hx | hx
    · refine ⟨i, hself.trans hx, fun j hj => ?_⟩
      by_contra hji
      exact (hnew m hm hx).2 j hji ((hother j hji).symm.trans hj)
    · have hi : s.fd i ≠ some m := fun hi => hold m hm hi hx hheld
      obtain ⟨k, hk, hunique⟩ := h.held m hm ((hrest m hm hi hx).symm.trans hheld)
      have hki : k ≠ i := fun heq => hi (heq ▸ hk)
      refine ⟨k, (hother k hki).trans hk, fun j hj => hunique j ?_⟩
      rcases eq_or_ne j i with rfl | hji
      · exact absurd (hself.symm.trans hj) hx
      · exact (hother j hji).symm.trans hj
  · rcases eq_or_ne j i with rfl | hji
    · exact hne (hnew m hm (hself.symm.trans hj)).1
    · have hx : x ≠ some m := fun hx => hne (hnew m hm hx).1
      have hj := (hother j hji).symm.trans hj
      have hi : s.fd i ≠ some m := fun hi => hji (h.owner_unique hj hi hm)
      exact h.others m hm (hrest m hm hi hx ▸ hne) j hj

/-- An object without a descriptor stays without one. -/
theorem idle (h : Accounted s) (hi : Idle (s.fd i)) {x : Option Int} (hx : Idle x) :
    Accounted ⟨Function.update s.fd i x, s.fate⟩ :=
  h.change (fun m hm hfd _ => absurd (hi m hfd) (not_lt.mpr hm))
    (fun m hm heq => absurd (hx m heq) (not_lt.mpr hm)) (fun _ _ _ _ => rfl) h.good

/-- An object gives its descriptor up, and it is closed or the caller's. -/
theorem giveUp (h : Accounted s) (hi : s.fd i = some n) {x : Option Int} (hx : Idle x) {f : Fate}
    (hf : f ≠ .held) (hbad : f ≠ .bad) :
    Accounted ⟨Function.update s.fd i x, Function.update s.fate n f⟩ := by
  refine h.change (fun m _ hfd _ => ?_) (fun m hm heq => absurd (hx m heq) (not_lt.mpr hm))
    (fun m _ hfd _ => ?_) fun m => ?_
  · cases hi.symm.trans hfd
    rwa [Function.update_self]
  · exact Function.update_of_ne (fun heq => hfd (hi.trans (congrArg some heq.symm))) ..
  · rcases eq_or_ne m n with rfl | hmn
    · rwa [Function.update_self]
    · rw [Function.update_of_ne hmn]
      exact h.good m

/-- An object without a descriptor gets one that no object owns. -/
theorem own (h : Accounted s) (hi : Idle (s.fd i)) (hfree : ∀ j, s.fd j ≠ some n) :
    Accounted ⟨Function.update s.fd i (some n), Function.update s.fate n .held⟩ := by
  refine h.change (fun m hm hfd _ => absurd (hi m hfd) (not_lt.mpr hm)) (fun m _ heq => ?_)
    (fun m _ _ hne => ?_) fun m => ?_
  · cases heq
    exact ⟨Function.update_self .., fun j _ => hfree j⟩
  · exact Function.update_of_ne (fun heq => hne (congrArg some heq.symm)) ..
  · rcases eq_or_ne m n with rfl | hmn
    · rw [Function.update_self]
      decide
    · rw [Function.update_of_ne hmn]
      exact h.good m

/-! ## The calls -/

/-- `close(fd_)`, if there is one, and -1 or nothing in its place. -/
theorem close (h : Accounted s) (hi : s.fd i = some n) {x : Option Int} (hx : Idle x) :
    Accounted (s.set i x (reset n (-1)).events) := by
  unfold reset given
  split
  · rename_i hn
    rw [State.set]
    simp only [List.foldl, record, h.owner hi hn, if_true]
    exact h.giveUp hi hx (by decide) (by decide)
  · rename_i hn
    refine h.idle ?_ hx
    rw [hi]
    exact idle_some (not_le.mp hn)

/-- After the events `es`, which leave the object without a descriptor, it gets a new one. -/
theorem obtained {x : Option Int} {es : List Event} (h : Accounted (s.set i x es)) (hx : Idle x)
    (hlegal : Legal (es.foldl record s.fate) [.obtained n]) :
    Accounted (s.set i (some n) (es ++ [.obtained n])) := by
  obtain ⟨⟨hn, hfree⟩, -⟩ := hlegal
  have hself := s.set_self i x es
  have hnot : (es.foldl record s.fate) n ≠ .held := fun heq => by rw [heq] at hfree; cases hfree
  have hown := h.own (hself ▸ hx) (h.others n hn hnot)
  simpa [State.set, List.foldl_append, record] using hown

/-- An object gets a new descriptor and closes its own: as if it had closed it first. -/
theorem replaced {fd : Int} (h : Accounted s) (hi : s.fd i = some fd)
    (hlegal : Legal s.fate (accept fd (.ok n)).events) :
    Accounted (s.set i (some n) (accept fd (.ok n)).events) := by
  obtain ⟨⟨hn, hfree⟩, -⟩ := hlegal
  have hclose := h.close hi (idle_some (by decide : (-1 : Int) < 0))
  have hevents : (reset fd (-1)).events = if fd ≥ 0 then [.closed fd] else [] := by
    unfold reset
    split <;> rfl
  rw [hevents] at hclose
  rw [accept]
  by_cases hfd : fd ≥ 0
  · have hheld := h.owner hi hfd
    have hne : n ≠ fd := fun heq => by
      rw [heq, hheld] at hfree
      cases hfree
    rw [if_pos hfd] at hclose ⊢
    have hclosed : [Event.closed fd].foldl record s.fate = Function.update s.fate fd .closed := by
      show Function.update s.fate fd (if s.fate fd = .held then .closed else .bad) = _
      rw [if_pos hheld]
    have hobtained := hclose.obtained (idle_some (by decide)) (n := n) (by
      rw [hclosed]
      refine ⟨⟨hn, ?_⟩, trivial⟩
      rwa [Function.update_of_ne hne])
    have hsame : [Event.obtained n, .closed fd].foldl record s.fate
        = ([Event.closed fd] ++ [Event.obtained n]).foldl record s.fate := by
      rw [List.foldl_append, hclosed]
      show Function.update (Function.update s.fate n .held) fd
        (if Function.update s.fate n .held fd = .held then .closed else .bad)
          = Function.update (Function.update s.fate fd .closed) n .held
      rw [Function.update_of_ne hne.symm, if_pos hheld, Function.update_comm hne]
    rwa [State.set, ← hsame] at hobtained
  · rw [if_neg hfd] at hclose ⊢
    exact hclose.obtained (idle_some (by decide)) ⟨⟨hn, hfree⟩, trivial⟩

/-- Likewise, one the caller hands over. -/
theorem taken {x : Option Int} {es : List Event} (h : Accounted (s.set i x es)) (hx : Idle x)
    (hunowned : Unowned s n) : Accounted (s.set i (some n) (es ++ given n)) := by
  have hself := s.set_self i x es
  unfold given
  split
  · rename_i hn
    have hfree : ∀ j, (s.set i x es).fd j ≠ some n := fun j hj => by
      rcases eq_or_ne j i with rfl | hji
      · exact absurd (hx n (hself.symm.trans hj)) (not_lt.mpr hn)
      · exact (hunowned hn).2 j ((s.set_of_ne hji x es).symm.trans hj)
    have hown := h.own (hself ▸ hx) hfree
    simpa [State.set, List.foldl_append, record] using hown
  · rename_i hn
    have hidle := h.idle (hself ▸ hx) (idle_some (not_le.mp hn))
    simpa [State.set] using hidle

end Accounted

theorem legal_append {f : Int → Fate} {es es' : List Event} (h : Legal f (es ++ es')) :
    Legal (es.foldl record f) es' := by
  induction es generalizing f with
  | nil => exact h
  | cons e es ih => exact ih h.2

theorem reset_events (fd fd' : Int) :
    (reset fd fd').events = (reset fd (-1)).events ++ given fd' := by
  unfold reset
  split <;> rfl

theorem reset_fd (fd fd' : Int) : (reset fd fd').fd = fd' := by
  unfold reset
  split <;> rfl

/-- Every call of a frugal run. -/
theorem Accounted.step [DecidableEq ι] {s t : State ι} {op : Op ι} (h : Accounted s)
    (hs : Step s op t) (hfrugal : Frugal s op) : Accounted t := by
  have hidle : Idle (some (-1)) := idle_some (by decide)
  cases hs with
  | construct i fd hi hunowned =>
      have hnone : Idle (s.fd i) := fun n hn => by rw [hi] at hn; cases hn
      have hsame : Accounted (s.set i (some (-1)) []) := h.idle hnone hidle
      exact hsame.taken hidle hunowned
  | @connect i fd socket conn hi hlegal =>
      have hclose := h.close hi hidle
      unfold Socket.connect at hlegal ⊢
      cases socket with
      | error errno => exact hclose
      | ok fd' => exact hclose.obtained hidle (legal_append hlegal)
  | @listen i fd socket bind list hi hlegal =>
      have hold : Idle (s.fd i) := fun n hn => hfrugal n hn
      have hsame : Accounted (s.set i (some (-1)) []) := h.idle hold hidle
      have hopen : ∀ fd', Legal s.fate [.obtained fd'] →
          Accounted (s.set i (some fd') [.obtained fd']) := fun fd' hl =>
        hsame.obtained hidle hl
      unfold Socket.listen at hlegal ⊢
      cases socket with
      | error errno => exact hsame
      | ok fd' =>
          cases bind with
          | error errno => exact hopen fd' hlegal
          | ok _ => cases list <;> exact hopen fd' hlegal
  | @accept i j fd accept4 _ hj hlegal =>
      cases accept4 with
      | error errno =>
          have hsame : s.set j (some fd) [] = s := by
            rw [State.set, ← hj, Function.update_eq_self]
            rfl
          exact hsame.symm ▸ h
      | ok fd' => exact h.replaced hj hlegal
  | @shutdown i fd shut hi =>
      cases shut with
      | error errno =>
          have hsame : s.set i (some fd) [] = s := by
            rw [State.set, ← hi, Function.update_eq_self]
            rfl
          exact hsame.symm ▸ h
      | ok _ => exact h.idle (fun n hn => hfrugal n hn) hidle
  | @reset i fd fd' hi hunowned =>
      rw [reset_events, reset_fd]
      exact (h.close hi hidle).taken hidle hunowned
  | @release i fd hi =>
      unfold Socket.release
      split
      · exact h.giveUp hi hidle (by decide) (by decide)
      · rename_i hn
        exact h.idle (hi ▸ idle_some (not_le.mp hn)) hidle
  | @destroy i fd hi => exact h.close hi fun n hn => by cases hn
  | callerOpen fd hp =>
      have hnot : s.fate fd ≠ .held := fun heq => by
        have := hp.2
        rw [heq] at this
        cases this
      exact h.outside hnot (by decide) (by decide)
  | callerClose fd hc => exact h.outside (by rw [hc]; decide) (by decide) (by decide)

/-- A call that is not frugal forgets a descriptor. -/
theorem Accounted.forget [DecidableEq ι] {s t : State ι} {op : Op ι} (h : Accounted s)
    (hs : Step s op t) (hwaste : ¬ Frugal s op) : ¬ Accounted t := by
  have hlost : ∀ {i : ι} {n : Int} {x : Option Int} {es : List Event}, s.fd i = some n → 0 ≤ n →
      x ≠ some n → (es.foldl record s.fate) n = .held → ¬ Accounted (s.set i x es) := by
    intro i n x es hi hn hx hheld ht
    obtain ⟨j, hj, -⟩ := ht.held n hn hheld
    rcases eq_or_ne j i with rfl | hji
    · exact hx ((s.set_self j x es).symm.trans hj)
    · exact hji (h.owner_unique ((s.set_of_ne hji x es).symm.trans hj) hi hn)
  have hne : ∀ n : Int, 0 ≤ n → some (-1) ≠ some n := fun n hn heq => by
    cases heq
    exact absurd hn (by decide)
  cases hs with
  | @listen i fd socket bind list hi hlegal =>
      have hn : 0 ≤ fd := by
        by_contra hlt
        exact hwaste fun n hfd => by cases hi.symm.trans hfd; exact not_le.mp hlt
      have hheld := h.owner hi hn
      have hopen : ∀ fd', Legal s.fate [.obtained fd'] →
          ¬ Accounted (s.set i (some fd') [.obtained fd']) := fun fd' hl => by
        have hfd : fd ≠ fd' := fun heq => by
          have := hl.1.2
          rw [← heq, hheld] at this
          cases this
        refine hlost hi hn (fun heq => hfd (Option.some.inj heq).symm) ?_
        exact (Function.update_of_ne hfd ..).trans hheld
      unfold Socket.listen at hlegal ⊢
      cases socket with
      | error errno => exact hlost hi hn (hne fd hn) hheld
      | ok fd' =>
          cases bind with
          | error errno => exact hopen fd' hlegal
          | ok _ => cases list <;> exact hopen fd' hlegal
  | @shutdown i fd shut hi =>
      cases shut with
      | error errno => exact absurd trivial hwaste
      | ok _ =>
          have hn : 0 ≤ fd := by
            by_contra hlt
            exact hwaste fun n hfd => by cases hi.symm.trans hfd; exact not_le.mp hlt
          exact hlost hi hn (hne fd hn) (h.owner hi hn)
  | construct | connect | accept | reset | release | destroy | callerOpen | callerClose =>
      exact absurd trivial hwaste

/-! ## Runs -/

theorem run_accounted [DecidableEq ι] {ops : List (Op ι)} {s : State ι}
    (h : (sockets.when Frugal).Run ops s) : Accounted s := by
  induction h with
  | start h₀ =>
      obtain ⟨hfd, hfate⟩ := h₀
      refine ⟨fun n _ hheld => ?_, fun n _ _ i hi => ?_, fun n hbad => ?_⟩
      · rw [hfate n] at hheld
        cases hheld
      · rw [hfd i] at hi
        cases hi
      · rw [hfate n] at hbad
        cases hbad
  | next _ hs ih => exact ih.step hs.1 hs.2

/-- **A `SocketFd` owns its descriptor.**  In every run in which `Listen` and a successful
`Shutdown` come to objects without a descriptor, every descriptor is accounted for, and once
there is no object left, all have been closed or are the caller's.  In any run, the first other
call of these two leaves a descriptor that nobody owns. -/
theorem descriptors_accounted [DecidableEq ι] {ops : List (Op ι)} {s : State ι} :
    ((sockets.when Frugal).Run ops s → Accounted s ∧ ((∀ i, s.fd i = none) → ∀ fd, 0 ≤ fd →
      s.fate fd = .none ∨ s.fate fd = .closed ∨ s.fate fd = .caller)) ∧
    (sockets.Run ops s → Accounted s → ∀ op t, Step s op t → ¬ Frugal s op → ¬ Accounted t) := by
  refine ⟨fun h => ⟨run_accounted h, fun hgone fd hn => ?_⟩, fun _ h op t hs hwaste =>
    h.forget hs hwaste⟩
  have hacc := run_accounted h
  cases hfate : s.fate fd with
  | none => exact .inl rfl
  | held =>
      obtain ⟨i, hi, -⟩ := hacc.held fd hn hfate
      rw [hgone i] at hi
      cases hi
  | caller => exact .inr (.inr rfl)
  | closed => exact .inr (.inl rfl)
  | bad => exact absurd hfate (hacc.good fd)

/-- An object connects, and is destroyed; another one connects, and shuts down. -/
theorem descriptors_accounted_connect : ∃ s t u : State Unit, s.fate 3 = .closed ∧ Accounted s ∧
    Accounted t ∧ ¬ Accounted u := by
  have start : ∀ c, (sockets.when c).Run [] (⟨fun _ => none, fun _ => .none⟩ : State Unit) :=
    fun c => .start ⟨fun _ => rfl, fun _ => rfl⟩
  have legal : Legal ((given (-1)).foldl record fun _ => .none)
      (connect (-1) (.ok 3) (.ok ())).events := ⟨⟨by decide, rfl⟩, trivial⟩
  have connected := ((start Frugal).next
    ⟨.construct () (-1) rfl fun h => absurd h (by decide), trivial⟩).next
    ⟨@Step.connect _ _ _ () (-1) (.ok 3) (.ok ()) rfl legal, trivial⟩
  have gone := connected.next ⟨.destroy () rfl, trivial⟩
  have both := descriptors_accounted.1 connected
  refine ⟨_, _, _, rfl, (descriptors_accounted.1 gone).1, both.1,
    descriptors_accounted.2 connected.of_when both.1 _ _ (.shutdown () (.ok ()) rfl) fun h => ?_⟩
  exact absurd (h 3 rfl) (by decide)

/-- **A descriptor that nobody closes.**  An object connects, shuts down and is destroyed. -/
theorem descriptor_lost : ∃ (ops : List (Op Unit)) (s : State Unit), sockets.Run ops s ∧
    (∀ i, s.fd i = none) ∧ s.fate 3 = .held ∧ ¬ Accounted s := by
  have start : sockets.Run [] (⟨fun _ => none, fun _ => .none⟩ : State Unit) :=
    .start ⟨fun _ => rfl, fun _ => rfl⟩
  have legal : Legal ((given (-1)).foldl record fun _ => .none)
      (connect (-1) (.ok 3) (.ok ())).events := ⟨⟨by decide, rfl⟩, trivial⟩
  have run := (((start.next (.construct () (-1) rfl fun h => absurd h (by decide))).next
    (@Step.connect _ _ _ () (-1) (.ok 3) (.ok ()) rfl legal)).next (.shutdown () (.ok ()) rfl)).next
    (.destroy () rfl)
  refine ⟨_, _, run, fun _ => rfl, rfl, fun h => ?_⟩
  obtain ⟨i, hi, -⟩ := h.held 3 (by decide) rfl
  cases hi

end PBase.Socket
