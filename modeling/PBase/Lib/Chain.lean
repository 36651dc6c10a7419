/-
# `PBase.Lib.Chain` — null-terminated linked lists

`Chain succ null a l`: following `succ` from `a` visits exactly the addresses `l`
and then reaches `null`.  A chain is determined by its first address
(`Chain.unique`), has no repeated address (`Chain.nodup`), and does not notice a
write to an address it does not visit (`Chain.frame`).  These three are what proofs
about a list that other code is writing to need: the first says what a read of the
list returns, the last that the other writes did not touch it.
-/
import Mathlib.Tactic

namespace PBase.Lib

variable {α : Type*}

/-- Following `succ` from an address visits the list, then `null`. -/
inductive Chain (succ : α → α) (null : α) : α → List α → Prop
  | nil : Chain succ null null []
  | cons {a : α} {l : List α} : a ≠ null → Chain succ null (succ a) l → Chain succ null a (a :: l)

namespace Chain

variable {succ succ' : α → α} {null a : α} {l l' : List α}

theorem of_null (h : Chain succ null null l) : l = [] := by
  cases h with
  | nil => rfl
  | cons hne _ => exact absurd rfl hne

/-- A chain from a proper address starts with it. -/
theorem of_ne (h : Chain succ null a l) (ha : a ≠ null) :
    ∃ t, l = a :: t ∧ Chain succ null (succ a) t := by
  cases h with
  | nil => exact absurd rfl ha
  | cons _ ht => exact ⟨_, rfl, ht⟩

/-- A chain visits the address it starts from, then the chain from there. -/
theorem of_cons {x : α} (h : Chain succ null a (x :: l)) : a = x ∧ Chain succ null (succ x) l := by
  cases h with
  | cons _ ht => exact ⟨rfl, ht⟩

theorem eq_nil_iff (h : Chain succ null a l) : l = [] ↔ a = null := by
  cases h with
  | nil => exact ⟨fun _ => rfl, fun _ => rfl⟩
  | cons hne _ => exact ⟨fun h => (List.cons_ne_nil _ _ h).elim, fun h => absurd h hne⟩

theorem ne_null (h : Chain succ null a l) : ∀ x ∈ l, x ≠ null := by
  induction h with
  | nil => exact fun x hx => absurd hx List.not_mem_nil
  | cons hne _ ih =>
      intro x hx
      rcases List.mem_cons.mp hx with rfl | hx
      · exact hne
      · exact ih x hx

theorem unique (h : Chain succ null a l) (h' : Chain succ null a l') : l = l' := by
  induction h generalizing l' with
  | nil => exact h'.of_null.symm
  | cons hne _ ih =>
      obtain ⟨t, rfl, ht⟩ := h'.of_ne hne
      rw [ih ht]

/-- A write outside the visited addresses is not noticed. -/
theorem frame (h : Chain succ null a l) (hs : ∀ x ∈ l, succ' x = succ x) :
    Chain succ' null a l := by
  induction h with
  | nil => exact .nil
  | cons hne _ ih =>
      refine .cons hne ?_
      rw [hs _ List.mem_cons_self]
      exact ih fun x hx => hs x (List.mem_cons_of_mem _ hx)

/-- From any visited address on, the chain is the rest of the list. -/
theorem drop {l₁ l₂ : List α} {x : α} (h : Chain succ null a (l₁ ++ x :: l₂)) :
    Chain succ null x (x :: l₂) := by
  induction l₁ generalizing a with
  | nil =>
      cases h with
      | cons hne ht => exact .cons hne ht
  | cons y l₁ ih =>
      cases h with
      | cons _ ht => exact ih ht

/-- The last address is linked to one more. -/
theorem snoc {x y : α} (h : Chain succ null a (l ++ [x])) (hy : y ≠ null) (hx : succ' x = y)
    (hend : succ' y = null) (hs : ∀ z ∈ l, succ' z = succ z) :
    Chain succ' null a (l ++ [x] ++ [y]) := by
  induction l generalizing a with
  | nil =>
      cases h with
      | cons hne _ =>
          refine .cons hne ?_
          rw [hx]
          refine .cons hy ?_
          rw [hend]
          exact .nil
  | cons z l ih =>
      cases h with
      | cons hne ht =>
          refine .cons hne ?_
          rw [hs z List.mem_cons_self]
          exact ih ht fun z hz => hs z (List.mem_cons_of_mem _ hz)

/-- A chain that ends visits no address twice. -/
theorem nodup (h : Chain succ null a l) : l.Nodup := by
  induction h with
  | nil => exact List.nodup_nil
  | @cons a t hne ht ih =>
      refine List.nodup_cons.mpr ⟨fun hmem => ?_, ih⟩
      -- a second visit would make the rest of the list its own proper suffix
      obtain ⟨l₁, l₂, rfl⟩ := List.append_of_mem hmem
      have heq := (ht.drop).unique (.cons hne ht)
      have hlen := congrArg List.length heq
      simp only [List.length_cons, List.length_append] at hlen
      omega

end Chain

end PBase.Lib
