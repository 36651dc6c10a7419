/-
# `PBase.Lib.System` — labelled transition systems, runs and invariants

A system is a set of initial states and a labelled step relation.  A label is
what an observer sees of a step: the value a call returns, the bytes handed to
an output function.  `S.Run es s` says that some run from an initial state
emits the events `es`, oldest first, and stops in `s`; it grows at the right,
so an induction over it is an induction over the history.

* `Run.invariant`: a property of the state alone that every step keeps.  A
  property of the history and the state is an induction over the run itself.
* `Run.refines`: every run of one system is a run of another, with the same labels.
* `Run.append`, `Run.steps`: a run goes on, with another run or with steps of one label.
* `S.when c` keeps the steps that meet `c`, a condition on the state a step
  starts from and on its label.  A run of `S.when c` is a run of `S`.
* `outside g f s` is the sum over the members of a finite family `f` that are not
  in `s`; it stays when members of `s` change (`sum_update`, `sum_updates`).
* `tally p f` counts the members of a finite family `f` (of thread states, say)
  that satisfy `p`; `tally_update` says what one update does to the count.
-/
import Mathlib.Tactic

namespace PBase.Lib

/-! ## Sums over a finite family -/

section Sum
variable {ι α M : Type*} [Fintype ι] [DecidableEq ι] [AddCommMonoid M]

/-- The sum over the members that are not in `s`. -/
def outside (g : α → M) (f : ι → α) (s : Finset ι) : M := ∑ k ∈ sᶜ, g (f k)

variable {g : α → M} {f f' : ι → α} {s : Finset ι} {i j : ι}

theorem sum_member (g : α → M) (f : ι → α) (i : ι) : ∑ k, g (f k) = g (f i) + outside g f {i} := by
  rw [← Finset.sum_add_sum_compl {i}, Finset.sum_singleton, outside]

theorem sum_members (g : α → M) (f : ι → α) (hij : i ≠ j) :
    ∑ k, g (f k) = g (f i) + (g (f j) + outside g f {i, j}) := by
  rw [← Finset.sum_add_sum_compl {i, j}, Finset.sum_pair hij, add_assoc, outside]

theorem outside_congr (h : ∀ k ∉ s, f' k = f k) : outside g f' s = outside g f s :=
  Finset.sum_congr rfl fun k hk => by rw [h k (Finset.mem_compl.mp hk)]

/-- One member changes. -/
theorem sum_update (g : α → M) (f : ι → α) (i : ι) (x : α) :
    ∑ k, g (Function.update f i x k) = g x + outside g f {i} := by
  rw [sum_member g _ i, Function.update_self, outside_congr fun k hk => ?_]
  exact Function.update_of_ne (fun heq => hk (Finset.mem_singleton.mpr heq)) ..

/-- Two members change. -/
theorem sum_updates (g : α → M) (f : ι → α) (hij : i ≠ j) (x y : α) :
    ∑ k, g (Function.update (Function.update f i x) j y k) = g x + (g y + outside g f {i, j}) := by
  rw [sum_members g _ hij, Function.update_self, Function.update_of_ne hij, Function.update_self,
    outside_congr fun k hk => ?_]
  rw [Finset.mem_insert, Finset.mem_singleton, not_or] at hk
  rw [Function.update_of_ne hk.2, Function.update_of_ne hk.1]

/-- What a member outside has is in the sum. -/
theorem mem_outside {β : Type*} {g : α → Multiset β} {k : ι} {b : β} (hk : k ∉ s)
    (hb : b ∈ g (f k)) :
    b ∈ outside g f s :=
  Multiset.mem_sum.mpr ⟨k, Finset.mem_compl.mpr hk, hb⟩

end Sum

/-! ## Counting the members of a finite family -/

section Tally
variable {ι α : Type*} [Fintype ι]

/-- How many members of the family `f` satisfy `p`. -/
def tally (p : α → Bool) (f : ι → α) : Nat :=
  ∑ i, (p (f i)).toNat

variable (p : α → Bool) (f : ι → α)

/-- An update moves the count by the difference of the old and the new member. -/
theorem tally_update [DecidableEq ι] (i : ι) (x : α) :
    tally p (Function.update f i x) + (p (f i)).toNat = tally p f + (p x).toNat := by
  have hnew := sum_update (fun a => (p a).toNat) f i x
  have hold := sum_member (fun a => (p a).toNat) f i
  unfold tally
  omega

theorem tally_pos {i : ι} (h : p (f i) = true) : 0 < tally p f := by
  have hle := Finset.single_le_sum (f := fun j => (p (f j)).toNat)
    (fun _ _ => Nat.zero_le _) (Finset.mem_univ i)
  simp only [h, Bool.toNat_true] at hle
  exact hle

theorem tally_eq_zero (h : ∀ i, p (f i) = false) : tally p f = 0 := by
  simp [tally, h]

end Tally

/-! ## Systems and runs -/

/-- Initial states and labelled steps. -/
structure System (σ ε : Type*) where
  init : σ → Prop
  step : σ → ε → σ → Prop

namespace System

variable {σ ε : Type*} (S : System σ ε)

/-- Some run from an initial state emits `es`, oldest first, and stops in `s`. -/
inductive Run : List ε → σ → Prop
  | start {s : σ} : S.init s → Run [] s
  | next {es : List ε} {s t : σ} {e : ε} : Run es s → S.step s e t → Run (es ++ [e]) t

/-- The system restricted to the steps that meet `c`. -/
def when (c : σ → ε → Prop) : System σ ε where
  init := S.init
  step s e t := S.step s e t ∧ c s e

variable {S}

/-- A state property kept by every step holds at the end of every run. -/
theorem Run.invariant {I : σ → Prop} (start : ∀ s, S.init s → I s)
    (next : ∀ s e t, I s → S.step s e t → I t) {es : List ε} {s : σ} (h : S.Run es s) : I s := by
  induction h with
  | start h₀ => exact start _ h₀
  | next _ hs ih => exact next _ _ _ ih hs

/-- If every step of `S` is one of `T` between related states, so is every run. -/
theorem Run.refines {τ : Type*} {T : System τ ε} {R : σ → τ → Prop}
    (start : ∀ s, S.init s → ∃ t, T.init t ∧ R s t)
    (next : ∀ s e s' t, R s t → S.step s e s' → ∃ t', T.step t e t' ∧ R s' t')
    {es : List ε} {s : σ} (h : S.Run es s) : ∃ t, T.Run es t ∧ R s t := by
  induction h with
  | start h₀ =>
      obtain ⟨t, ht, hR⟩ := start _ h₀
      exact ⟨t, .start ht, hR⟩
  | next _ hs ih =>
      obtain ⟨t, ht, hR⟩ := ih
      obtain ⟨t', hstep, hR'⟩ := next _ _ _ t hR hs
      exact ⟨t', ht.next hstep, hR'⟩

/-- A run of the restricted system is a run of the system. -/
theorem Run.of_when {c : σ → ε → Prop} {es : List ε} {s : σ} (h : (S.when c).Run es s) :
    S.Run es s := by
  induction h with
  | start h₀ => exact .start h₀
  | next _ hs ih => exact .next ih hs.1

/-- A run that is evaluated: the steps are computed one after the other. -/
theorem Run.foldlM {f : σ → ε → Option σ} (hf : ∀ s e t, f s e = some t → S.step s e t)
    {es cs : List ε} {s t : σ} (h : S.Run es s) (hcs : cs.foldlM f s = some t) :
    S.Run (es ++ cs) t := by
  induction cs generalizing es s with
  | nil =>
      cases hcs
      exact (List.append_nil es).symm ▸ h
  | cons e cs ih =>
      obtain ⟨s', hstep, hcs⟩ := Option.bind_eq_some_iff.mp hcs
      rw [List.append_cons]
      exact ih (h.next (hf s e s' hstep)) hcs

/-- A run goes on with another one, from where it stopped. -/
theorem Run.append {S' : System σ ε} {es es' : List ε} {s t : σ} (h : S.Run es s)
    (h' : S'.Run es' t) (start : ∀ x, S'.init x → x = s)
    (next : ∀ x e y, S'.step x e y → S.step x e y) : S.Run (es ++ es') t := by
  induction h' with
  | start h₀ =>
      cases start _ h₀
      exact (List.append_nil es).symm ▸ h
  | next _ hs ih =>
      rw [← List.append_assoc]
      exact ih.next (next _ _ _ hs)

/-- Steps with one label, one after the other. -/
theorem Run.steps {α : Type*} {R : α → α → Prop} {g : α → σ} {e : ε} {es : List ε} {a b : α}
    (h : S.Run es (g a)) (hR : Relation.ReflTransGen R a b)
    (next : ∀ a b, R a b → S.step (g a) e (g b)) : ∃ n, S.Run (es ++ List.replicate n e) (g b) := by
  induction hR with
  | refl => exact ⟨0, (List.append_nil es).symm ▸ h⟩
  | tail _ hab ih =>
      obtain ⟨n, hrun⟩ := ih
      refine ⟨n + 1, ?_⟩
      rw [List.replicate_succ', ← List.append_assoc]
      exact hrun.next (next _ _ hab)

end System

end PBase.Lib
