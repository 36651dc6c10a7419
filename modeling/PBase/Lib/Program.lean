/-
# `PBase.Lib.Program` — programs on a state that may fail to return

A program is a `StateT σ Option α`: it returns a value and a new state, or it does not
return (a null pointer, a loop that does not end).  `Returns m s Q` is total correctness: run
from `s`, `m` returns, and `Q` holds of what it returns and of the state it leaves.

* one rule for each construct (`pure`, `bind`, `get`, `set`, `ite`), and `Returns.mono` for a
  call, whose specification is another `Returns`;
* `loop body fuel` repeats `body` until it leaves with a value; `Returns.loop` is the rule, with
  an invariant that counts the turns left, which the fuel bounds;
* `Returns.of_run`: what is known of a program holds of any run of it; `run_bind_some` and
  `loop_run` take a run apart;
* `Preserves P m` is partial correctness for one property `P` of the state, with the same rules;
  `Returns.and_preserves` adds it to a specification.
-/
import Mathlib.Tactic

namespace PBase.Lib

variable {σ α β γ : Type}

/-- Run from `s`, the program returns, and `Q` holds of its value and the state it leaves. -/
def Returns (m : StateT σ Option α) (s : σ) (Q : α → σ → Prop) : Prop :=
  ∃ a s', m.run s = some (a, s') ∧ Q a s'

/-- `while (true) body`, at most `fuel` times: `body` goes on with a new value of the loop's
variables, or leaves the loop with a result. -/
def loop (body : β → StateT σ Option (β ⊕ α)) : Nat → β → StateT σ Option α
  | 0, _ => failure
  | fuel + 1, b => do
      match ← body b with
      | .inl b' => loop body fuel b'
      | .inr a => pure a

namespace Returns

variable {m : StateT σ Option α} {f : α → StateT σ Option β} {s s' : σ} {a : α}
  {Q Q' : α → σ → Prop}

theorem mono (h : Returns m s Q) (hq : ∀ a s', Q a s' → Q' a s') : Returns m s Q' := by
  obtain ⟨a, s', hrun, hQ⟩ := h
  exact ⟨a, s', hrun, hq a s' hQ⟩

theorem of_run (h : Returns m s Q) (hrun : m.run s = some (a, s')) : Q a s' := by
  obtain ⟨b, t, hrun', hQ⟩ := h
  cases hrun.symm.trans hrun'
  exact hQ

theorem pure (h : Q a s) : Returns (Pure.pure a) s Q := ⟨a, s, rfl, h⟩

theorem bind {Q : β → σ → Prop} (h : Returns m s fun a s' => Returns (f a) s' Q) :
    Returns (m >>= f) s Q := by
  obtain ⟨a, s', hrun, b, t, hrun', hQ⟩ := h
  refine ⟨b, t, ?_, hQ⟩
  rw [StateT.run_bind, hrun]
  exact hrun'

theorem get {Q : σ → σ → Prop} (h : Q s s) : Returns MonadState.get s Q := ⟨s, s, rfl, h⟩

theorem set {Q : PUnit → σ → Prop} (h : Q ⟨⟩ s') : Returns (MonadStateOf.set s') s Q :=
  ⟨⟨⟩, s', rfl, h⟩

theorem modify {Q : PUnit → σ → Prop} {g : σ → σ} (h : Q ⟨⟩ (g s)) : Returns (modify g) s Q :=
  ⟨⟨⟩, g s, rfl, h⟩

theorem ite {c : Prop} [Decidable c] {m' : StateT σ Option α} (ht : c → Returns m s Q)
    (he : ¬ c → Returns m' s Q) : Returns (if c then m else m') s Q := by
  split
  · exact ht ‹_›
  · exact he ‹_›

/-- The rule for loops: with `n` turns left at most, the body goes on with fewer, or leaves
the loop with what is wanted. -/
theorem loop {body : β → StateT σ Option (β ⊕ α)} {I : Nat → β → σ → Prop}
    (hbody : ∀ n b s, I n b s → Returns (body b) s fun r s' =>
      (∀ b', r = .inl b' → ∃ m < n, I m b' s') ∧ ∀ a, r = .inr a → Q a s')
    {n fuel : Nat} {b : β} (hI : I n b s) (hfuel : n < fuel) :
    Returns (Lib.loop body fuel b) s Q := by
  induction fuel generalizing n b s with
  | zero => exact absurd hfuel (Nat.not_lt_zero n)
  | succ fuel ih =>
      refine bind ((hbody n b s hI).mono fun r s' hr => ?_)
      cases r with
      | inl b' =>
          obtain ⟨m, hlt, hI'⟩ := hr.1 b' rfl
          exact ih hI' (Nat.lt_of_lt_of_le hlt (Nat.le_of_lt_succ hfuel))
      | inr a => exact pure (hr.2 a rfl)

end Returns

/-- A run of two programs one after the other. -/
theorem run_bind_some {m : StateT σ Option α} {f : α → StateT σ Option β} {s t : σ} {b : β} :
    (m >>= f).run s = some (b, t) ↔ ∃ a s', m.run s = some (a, s') ∧
    (f a).run s' = some (b, t) := by
  rw [StateT.run_bind]
  constructor
  · intro hrun
    obtain ⟨⟨a, s'⟩, hm, hf⟩ := Option.bind_eq_some_iff.mp hrun
    exact ⟨a, s', hm, hf⟩
  · rintro ⟨a, s', hm, hf⟩
    exact Option.bind_eq_some_iff.mpr ⟨(a, s'), hm, hf⟩

/-- What leaves a loop, if every turn keeps `I` of the loop's variables. -/
theorem loop_run {body : β → StateT σ Option (β ⊕ α)} {I : β → Prop} {Q : α → Prop}
    (hbody : ∀ b s r s', I b → (body b).run s = some (r, s') → (∀ b', r = .inl b' → I b') ∧
      ∀ a, r = .inr a → Q a)
    {fuel : Nat} {b : β} {s s' : σ} {a : α} (hI : I b)
    (hrun : (loop body fuel b).run s = some (a, s')) : Q a := by
  induction fuel generalizing b s with
  | zero => cases hrun
  | succ fuel ih =>
      obtain ⟨r, s₁, hturn, hrest⟩ := run_bind_some.mp hrun
      obtain ⟨hnext, hlast⟩ := hbody b s r s₁ hI hturn
      cases r with
      | inl b' => exact ih (hnext b' rfl) hrest
      | inr _ =>
          cases hrest
          exact hlast _ rfl

/-- Every run from a state with `P` ends in one. -/
def Preserves (P : σ → Prop) (m : StateT σ Option α) : Prop :=
  ∀ s a s', P s → m.run s = some (a, s') → P s'

theorem Returns.and_preserves {m : StateT σ Option α} {s : σ} {Q : α → σ → Prop} {P : σ → Prop}
    (h : Returns m s Q) (hm : Preserves P m) (hs : P s) :
    Returns m s fun a s' => Q a s' ∧ P s' := by
  obtain ⟨a, s', hrun, hQ⟩ := h
  exact ⟨a, s', hrun, hQ, hm s a s' hs hrun⟩

namespace Preserves

variable {P : σ → Prop} {m : StateT σ Option α} {f : α → StateT σ Option β}

theorem of_returns (h : ∀ s, P s → Returns m s fun _ s' => P s') : Preserves P m :=
  fun s _ _ hs hrun => (h s hs).of_run hrun

theorem pure (a : α) : Preserves P (Pure.pure a : StateT σ Option α) :=
  of_returns fun _ hs => .pure hs

theorem get : Preserves P (MonadState.get : StateT σ Option σ) := of_returns fun _ hs => .get hs

theorem modify {g : σ → σ} (h : ∀ s, P s → P (g s)) :
    Preserves P (modify g : StateT σ Option PUnit) :=
  of_returns fun s hs => .modify (h s hs)

theorem failure : Preserves P (failure : StateT σ Option α) := by
  intro s a s' _ hrun
  cases hrun

theorem bind (hm : Preserves P m) (hf : ∀ a, Preserves P (f a)) : Preserves P (m >>= f) := by
  intro s b t hs hrun
  obtain ⟨a, s', hrun, hrun'⟩ := run_bind_some.mp hrun
  exact hf a s' b t (hm s a s' hs hrun) hrun'

theorem ite {c : Prop} [Decidable c] {m' : StateT σ Option α} (ht : c → Preserves P m)
    (he : ¬ c → Preserves P m') : Preserves P (if c then m else m') := by
  split
  · exact ht ‹_›
  · exact he ‹_›

theorem loop {body : β → StateT σ Option (β ⊕ α)} (hbody : ∀ b, Preserves P (body b)) (fuel : Nat)
    (b : β) : Preserves P (Lib.loop body fuel b) := by
  induction fuel generalizing b with
  | zero => exact failure
  | succ fuel ih =>
      refine bind (hbody b) fun r => ?_
      cases r with
      | inl b' => exact ih b'
      | inr a => exact pure a

end Preserves

end PBase.Lib
