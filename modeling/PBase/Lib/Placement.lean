/-
# `PBase.Lib.Placement` — every item is in exactly one place

Ownership as a partition.  `loc p` lists the items at place `p` (a stack, a list, the
hands of a thread); `Placed loc all` says that the items `all` are each at exactly one
place and there once.  What changes hands is a matter of a few places, and these
lemmas only ask about them:

* `Placed.create`: new items appear at the places `ps`, which pass around what they held;
* `Placed.redistribute`: the places `ps` pass around what they held;
* `Placed.move`: items go from one place to another;
* `Placed.perm`: every place holds what it held, in another order.

There may be infinitely many places, so threads need not be counted.
-/
import Mathlib.Tactic

namespace PBase.Lib

variable {α P : Type*}

/-- The items `all` are each at exactly one place, once, and nothing else is anywhere. -/
structure Placed (loc : P → List α) (all : α → Prop) : Prop where
  nodup : ∀ p, (loc p).Nodup
  apart : ∀ {p q x}, x ∈ loc p → x ∈ loc q → p = q
  cover : ∀ x, all x ↔ ∃ p, x ∈ loc p

namespace Placed

variable {loc loc' : P → List α} {all : α → Prop}

theorem existsUnique (h : Placed loc all) {x : α} (hx : all x) : ∃! p, x ∈ loc p := by
  obtain ⟨p, hp⟩ := (h.cover x).mp hx
  exact ⟨p, hp, fun q hq => h.apart hq hp⟩

theorem mem_all (h : Placed loc all) {p : P} {x : α} (hx : x ∈ loc p) : all x :=
  (h.cover x).mpr ⟨p, hx⟩

theorem nodup_flatMap (h : Placed loc all) {ps : List P} (hps : ps.Nodup) :
    (ps.flatMap loc).Nodup := by
  refine List.nodup_flatMap.mpr ⟨fun p _ => h.nodup p, hps.imp fun {p q} hpq => ?_⟩
  exact fun x hp hq => hpq (h.apart hp hq)

/-- The new items `xs` appear at the places `ps`, which otherwise pass around what they
held; the other places keep theirs. -/
theorem create (h : Placed loc all) (ps : List P) {xs : List α} (hxs : xs.Nodup)
    (hnew : ∀ x ∈ xs, ¬ all x) (hps : ps.Nodup)
    (hperm : (ps.flatMap loc').Perm (xs ++ ps.flatMap loc))
    (hrest : ∀ p ∉ ps, (loc' p).Perm (loc p)) :
    Placed loc' (fun x => x ∈ xs ∨ all x) := by
  have hnodup : (ps.flatMap loc').Nodup := by
    refine hperm.nodup_iff.mpr (List.nodup_append'.mpr ⟨hxs, h.nodup_flatMap hps, ?_⟩)
    intro x hx hmem
    obtain ⟨p, _, hp⟩ := List.mem_flatMap.mp hmem
    exact hnew x hx (h.mem_all hp)
  -- where an item was before
  have hback : ∀ {p x}, x ∈ loc' p →
      (p ∈ ps ∧ (x ∈ xs ∨ ∃ q ∈ ps, x ∈ loc q)) ∨ (p ∉ ps ∧ x ∈ loc p) := by
    intro p x hx
    by_cases hp : p ∈ ps
    · have hmem := hperm.mem_iff.mp (List.mem_flatMap.mpr ⟨p, hp, hx⟩)
      exact .inl ⟨hp, (List.mem_append.mp hmem).imp_right List.mem_flatMap.mp⟩
    · exact .inr ⟨hp, (hrest p hp).mem_iff.mp hx⟩
  have hforth : ∀ {x}, (x ∈ xs ∨ ∃ q ∈ ps, x ∈ loc q) → ∃ p, x ∈ loc' p := by
    intro x hx
    have hmem := hperm.mem_iff.mpr (List.mem_append.mpr (hx.imp_right List.mem_flatMap.mpr))
    obtain ⟨p, _, hp⟩ := List.mem_flatMap.mp hmem
    exact ⟨p, hp⟩
  have houtside : ∀ {p q x}, (x ∈ xs ∨ ∃ q ∈ ps, x ∈ loc q) → p ∉ ps → x ∈ loc p → p = q := by
    rintro p q x (hx | ⟨r, hr, hx⟩) hp hmem
    · exact absurd (h.mem_all hmem) (hnew x hx)
    · exact absurd (h.apart hx hmem ▸ hr) hp
  refine ⟨fun p => ?_, fun {p q x} hx hy => ?_, fun x => ⟨?_, ?_⟩⟩
  · by_cases hp : p ∈ ps
    · exact (List.nodup_flatMap.mp hnodup).1 p hp
    · exact (hrest p hp).nodup_iff.mpr (h.nodup p)
  · rcases hback hx with ⟨hp, hx'⟩ | ⟨hp, hx'⟩ <;> rcases hback hy with ⟨hq, hy'⟩ | ⟨hq, hy'⟩
    · by_contra hpq
      have : Std.Symm (Function.onFun List.Disjoint loc') := ⟨fun _ _ hd => List.Disjoint.symm hd⟩
      exact (List.nodup_flatMap.mp hnodup).2.forall hp hq hpq hx hy
    · exact (houtside hx' hq hy').symm
    · exact houtside hy' hp hx'
    · exact h.apart hx' hy'
  · rintro (hx | hx)
    · exact hforth (.inl hx)
    · obtain ⟨p, hp⟩ := (h.cover x).mp hx
      by_cases hmem : p ∈ ps
      · exact hforth (.inr ⟨p, hmem, hp⟩)
      · exact ⟨p, (hrest p hmem).mem_iff.mpr hp⟩
  · rintro ⟨p, hx⟩
    rcases hback hx with ⟨_, hx | ⟨q, _, hx⟩⟩ | ⟨_, hx⟩
    · exact .inl hx
    · exact .inr (h.mem_all hx)
    · exact .inr (h.mem_all hx)

/-- The places `ps` pass around what they held; the other places keep theirs. -/
theorem redistribute (h : Placed loc all) (ps : List P) (hps : ps.Nodup)
    (hperm : (ps.flatMap loc').Perm (ps.flatMap loc))
    (hrest : ∀ p ∉ ps, (loc' p).Perm (loc p)) : Placed loc' all := by
  have hcreate :=
      h.create ps List.nodup_nil (fun x hx => absurd hx List.not_mem_nil) hps hperm hrest
  simpa using hcreate

/-- The places hold the same items, in whatever order. -/
theorem perm (h : Placed loc all) (hp : ∀ p, (loc' p).Perm (loc p)) : Placed loc' all :=
  h.redistribute [] List.nodup_nil (.refl _) fun p _ => hp p

/-- The items `xs` go from place `p` to place `q`; the other places keep theirs. -/
theorem move (h : Placed loc all) {p q : P} (hpq : p ≠ q) (xs : List α)
    (hp : (loc p).Perm (xs ++ loc' p)) (hq : (loc' q).Perm (xs ++ loc q))
    (hrest : ∀ r, r ≠ p → r ≠ q → (loc' r).Perm (loc r)) : Placed loc' all := by
  refine h.redistribute [p, q] (by simpa using hpq) ?_ fun r hr => ?_
  · simp only [List.flatMap_cons, List.flatMap_nil, List.append_nil]
    refine (hq.append_left _).trans (.trans ?_ (hp.symm.append_right _))
    rw [← List.append_assoc]
    exact List.perm_append_comm.append_right _
  · rw [List.mem_cons, List.mem_singleton, not_or] at hr
    exact hrest r hr.1 hr.2

end Placed

end PBase.Lib
