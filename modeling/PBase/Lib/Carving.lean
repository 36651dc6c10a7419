/-
# `PBase.Lib.Carving` — memory cut from blocks

An `Area` is a stretch of addresses.  `Carved blocks areas free` says that the `areas` were cut
from the `blocks`, each from one, and no two overlap; what is left of the block at hand is `free`:

    block      ├── area ──┤ gap ├── area ──┼────── free ──────┤

There are three ways to go on: the next area is cut from the free part, perhaps after a gap
(`take`), or it is a block of its own (`whole`), or the free part is given up for a new block
(`renew`).  Before the first block the free part is null.

Areas that do not overlap are together no larger than the addresses they lie in (`sum_size_le`).
-/
import Mathlib.Tactic

namespace PBase.Lib

structure Area where
  ptr : Nat
  size : Nat

namespace Area

/-- One ends before the other begins. -/
def Apart (a b : Area) : Prop := a.ptr + a.size ≤ b.ptr ∨ b.ptr + b.size ≤ a.ptr

def Within (a b : Area) : Prop := b.ptr ≤ a.ptr ∧ a.ptr + a.size ≤ b.ptr + b.size

def null : Area := ⟨0, 0⟩

instance (a b : Area) : Decidable (a.Apart b) := inferInstanceAs (Decidable (_ ∨ _))

variable {a b c : Area}

theorem Apart.symm (h : a.Apart b) : b.Apart a := Or.symm h

theorem Within.apart (h : a.Within b) (hc : c.Apart b) : c.Apart a := by
  unfold Within Apart at *
  omega

theorem Within.refl (a : Area) : a.Within a := ⟨le_rfl, le_rfl⟩

theorem Within.trans (h : a.Within b) (h' : b.Within c) : a.Within c := by
  unfold Within at *
  omega

theorem apart_null (a : Area) : a.Apart null := .inr (Nat.zero_le _)

end Area

open Area

/-! ## Sizes -/

/-- The addresses of some areas. -/
def cells : List Area → Finset Nat
  | [] => ∅
  | a :: areas => Finset.Ico a.ptr (a.ptr + a.size) ∪ cells areas

theorem mem_cells {areas : List Area} {n : Nat} :
    n ∈ cells areas ↔ ∃ a ∈ areas, a.ptr ≤ n ∧ n < a.ptr + a.size := by
  induction areas with
  | nil => simp [cells]
  | cons a areas ih => simp [cells, ih]

/-- Areas that do not overlap share no address. -/
theorem card_cells {areas : List Area} (h : areas.Pairwise Apart) :
    (cells areas).card = (areas.map (·.size)).sum := by
  induction h with
  | nil => rfl
  | @cons a areas ha _ ih =>
      have hdisjoint : Disjoint (Finset.Ico a.ptr (a.ptr + a.size)) (cells areas) := by
        rw [Finset.disjoint_left]
        intro n hn hcell
        obtain ⟨hle, hlt⟩ := Finset.mem_Ico.mp hn
        obtain ⟨c, hc, hle', hlt'⟩ := mem_cells.mp hcell
        rcases ha c hc with hbefore | hbehind <;> omega
      rw [cells, Finset.card_union_of_disjoint hdisjoint, Nat.card_Ico, ih, List.map_cons,
          List.sum_cons,
        Nat.add_sub_cancel_left]

theorem sum_size_le {areas : List Area} {bound : Nat} (h : areas.Pairwise Apart)
    (hin : ∀ a ∈ areas, a.ptr + a.size ≤ bound) : (areas.map (·.size)).sum ≤ bound := by
  have hsub : cells areas ⊆ Finset.range bound := by
    intro n hn
    obtain ⟨a, ha, -, hlt⟩ := mem_cells.mp hn
    exact Finset.mem_range.mpr (hlt.trans_le (hin a ha))
  have hcard := Finset.card_le_card hsub
  rwa [card_cells h, Finset.card_range] at hcard

/-! ## Carving -/

structure Carved (blocks areas : List Area) (free : Area) : Prop where
  blocks_apart : blocks.Pairwise Apart
  areas_apart : areas.Pairwise Apart
  within : ∀ a ∈ areas, ∃ b ∈ blocks, a.Within b
  free_apart : ∀ a ∈ areas, a.Apart free
  free_within : free = null ∨ ∃ b ∈ blocks, free.Within b

namespace Carved

variable {blocks areas : List Area} {free b : Area}

theorem nil : Carved [] [] null :=
  ⟨.nil, .nil, fun _ ha => absurd ha List.not_mem_nil, fun _ ha => absurd ha List.not_mem_nil,
    .inl rfl⟩

/-- One area more. -/
theorem pairwise_concat {a : Area} (h : areas.Pairwise Apart) (ha : ∀ c ∈ areas, c.Apart a) :
    (areas ++ [a]).Pairwise Apart :=
  List.pairwise_append.mpr ⟨h, List.pairwise_singleton _ a, fun c hc d hd => by
    rw [List.mem_singleton.mp hd]
    exact ha c hc⟩

theorem forall_mem_concat {p : Area → Prop} {a : Area} (h : ∀ c ∈ areas, p c) (ha : p a) :
    ∀ c ∈ areas ++ [a], p c := by
  intro c hc
  rcases List.mem_append.mp hc with hc | hc
  · exact h c hc
  · rw [List.mem_singleton.mp hc]
    exact ha

/-- `n` addresses of the free part, after a gap of `k`. -/
theorem take (h : Carved blocks areas free) {k n : Nat} (hn : 0 < n) (hfits : k + n ≤ free.size) :
    Carved blocks (areas ++ [⟨free.ptr + k, n⟩])
      ⟨free.ptr + (k + n), free.size - (k + n)⟩ := by
  have harea : Within ⟨free.ptr + k, n⟩ free := by
    simp only [Within]
    omega
  have hrest : Within ⟨free.ptr + (k + n), free.size - (k + n)⟩ free := by
    simp only [Within]
    omega
  obtain ⟨c, hc, hfree⟩ : ∃ c ∈ blocks, free.Within c := by
    rcases h.free_within with rfl | hin
    · exact absurd hfits (by simp only [null]; omega)
    · exact hin
  refine ⟨h.blocks_apart, pairwise_concat h.areas_apart fun a ha => ?_, ?_, ?_,
      .inr ⟨c, hc, hrest.trans hfree⟩⟩
  · exact harea.apart (h.free_apart a ha)
  · exact forall_mem_concat h.within ⟨c, hc, harea.trans hfree⟩
  · refine forall_mem_concat (fun a ha => hrest.apart (h.free_apart a ha)) (.inl ?_)
    show free.ptr + k + n ≤ free.ptr + (k + n)
    omega

/-- A new block overlaps nothing. -/
theorem new_apart (h : Carved blocks areas free) (hb : ∀ c ∈ blocks, b.Apart c) :
    (∀ a ∈ areas, a.Apart b) ∧ b.Apart free := by
  constructor
  · intro a ha
    obtain ⟨c, hc, hin⟩ := h.within a ha
    exact (hin.apart (hb c hc)).symm
  · rcases h.free_within with rfl | ⟨c, hc, hin⟩
    · exact apart_null b
    · exact hin.apart (hb c hc)

theorem within_cons (h : ∀ a ∈ areas, ∃ c ∈ blocks, a.Within c) :
    ∀ a ∈ areas, ∃ c ∈ b :: blocks, a.Within c := by
  intro a ha
  obtain ⟨c, hc, hin⟩ := h a ha
  exact ⟨c, List.mem_cons_of_mem b hc, hin⟩

/-- A block of its own. -/
theorem whole (h : Carved blocks areas free) (hb : ∀ c ∈ blocks, b.Apart c) :
    Carved (b :: blocks) (areas ++ [b]) free := by
  obtain ⟨hareas, hfree⟩ := h.new_apart hb
  refine ⟨List.pairwise_cons.mpr ⟨hb, h.blocks_apart⟩, pairwise_concat h.areas_apart hareas, ?_, ?_,
      ?_⟩
  · exact forall_mem_concat (within_cons h.within) ⟨b, List.mem_cons_self, .refl b⟩
  · exact forall_mem_concat h.free_apart hfree
  · rcases h.free_within with hnull | ⟨c, hc, hin⟩
    · exact .inl hnull
    · exact .inr ⟨c, List.mem_cons_of_mem b hc, hin⟩

/-- The rest of the block is given up for a new one. -/
theorem renew (h : Carved blocks areas free) (hb : ∀ c ∈ blocks, b.Apart c) :
    Carved (b :: blocks) areas b :=
  ⟨List.pairwise_cons.mpr ⟨hb, h.blocks_apart⟩, h.areas_apart, within_cons h.within,
    (h.new_apart hb).1,
    .inr ⟨b, List.mem_cons_self, .refl b⟩⟩

end Carved

end PBase.Lib
