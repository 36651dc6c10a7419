/-
# `PBase.Buffer.Refs` — the reference counts of blocks

`Refs w L H`: the blocks `L` are on the cache list, `H` are the references held elsewhere, and
`ref_num` counts both.  So a block on the list or with a held reference is there, and a
reference can be dropped: either the block stays, or it goes to the list with its offset at 0
(`dec_ref` and `release_block` put it there), or it is freed.

`acquire_block` drops the list's own reference on a full head (`Refs.drop`), while the head is
still `head_`.  If that reference is the last one, `release_block` puts the block back on the
list it is about to leave: the block points to itself, and `head_` moves past it.  It is never
found again.  Its count of 1 is then nobody's; the note `drop` records the case.
-/
import PBase.Lib.Chain
import PBase.Buffer.Model

namespace PBase.Buffer

open PBase.Lib

/-! ## Steps of a program -/

section Steps
variable {w : World} {p : Nat} {b : Block}

theorem returns_load {Q : Block → World → Prop} (h : w.block p = some b) (hQ : Q b w) :
    Returns (load p) w Q := by
  refine .bind (.get ?_)
  simp only [h]
  exact .pure hQ

variable {Q : Unit → World → Prop}

theorem returns_store (hQ : Q ⟨⟩ (w.setBlock p b)) : Returns (store p b) w Q := .modify hQ

theorem returns_note {n : Note} (hQ : Q ⟨⟩ { w with notes := n :: w.notes }) :
    Returns (note n) w Q := .modify hQ

theorem returns_setHead (hQ : Q ⟨⟩ { w with head := p }) : Returns (setHead p) w Q := .modify hQ

theorem setBlock_self : (w.setBlock p b).block p = some b := Function.update_self ..

theorem setBlock_of_ne {q : Nat} (hq : q ≠ p) : (w.setBlock p b).block q = w.block q :=
  Function.update_of_ne hq ..

theorem returns_createBlock {size : Nat} {Q : Nat → World → Prop}
    (hQ : Q (w.mallocs + 1)
      { w.setBlock (w.mallocs + 1) (.create w.env (w.mallocs + 1) (size % 2 ^ 32)) with
        mallocs := w.mallocs + 1, gBlockNumber := w.gBlockNumber + 1 }) :
    Returns (createBlock size) w Q := .bind (.get (.bind (.set (.pure hQ))))

theorem returns_incRef (hb : w.block p = some b)
    (hQ : Q ⟨⟩ (w.setBlock p { b with refNum := b.refNum + 1 })) : Returns (incRef p) w Q :=
  .bind (returns_load hb (returns_store hQ))

/-- Other references are left. -/
theorem decRef_shared (hb : w.block p = some b) (h : 1 < b.refNum)
    (hQ : Q ⟨⟩ (w.setBlock p { b with refNum := b.refNum - 1 })) : Returns (decRef p) w Q := by
  refine .bind (returns_load hb (.ite (fun hle => ?_) fun _ => returns_store hQ))
  exact absurd h (not_lt.mpr hle)

/-- The last reference, on a block that goes to the cache. -/
theorem decRef_cached (hb : w.block p = some b) (h : b.refNum ≤ 1)
    (hn : w.blockNumber < kBlockCachedPerThread)
    (hQ : Q ⟨⟩ { w.setBlock p { b with next := w.head, offset := 0 } with
      head := p, blockNumber := (w.blockNumber + 1) % 2 ^ 32, notes := .release p :: w.notes }) :
    Returns (decRef p) w Q := by
  refine .bind (returns_load hb (.ite (fun _ => .bind (returns_store ?_)) fun hlt => absurd h hlt))
  refine .bind (returns_note
      (.bind (.get (.ite (fun _ => .bind (.modify ?_)) fun hge => absurd hn hge))))
  refine .bind (returns_incRef setBlock_self (.bind (returns_load setBlock_self ?_)))
  refine .bind (returns_store (.modify ?_))
  simpa [World.setBlock] using hQ

/-- The last reference, on a block that is freed. -/
theorem decRef_freed (hb : w.block p = some b) (h : b.refNum ≤ 1)
    (hn : ¬ w.blockNumber < kBlockCachedPerThread)
    (hQ : Q ⟨⟩ { w with
      block := Function.update w.block p none, gBlockNumber := w.gBlockNumber - 1,
      notes := .release p :: w.notes }) :
    Returns (decRef p) w Q := by
  refine .bind (returns_load hb (.ite (fun _ => .bind (returns_store ?_)) fun hlt => absurd h hlt))
  refine .bind (returns_note (.bind (.get (.ite (fun hlt => absurd hlt hn) fun _ => .modify ?_))))
  simpa [World.setBlock] using hQ

end Steps

/-! ## Counts -/

/-- `block->next` -/
def World.next (w : World) (p : Nat) : Nat := (w.block p).elim 0 Block.next

/-- The blocks `L` are the cache list, `H` the references held otherwise. -/
structure Refs (w : World) (L : List Nat) (H : Multiset Nat) : Prop where
  chain : Chain w.next 0 w.head L
  listed : ∀ p ∈ L, (w.block p).isSome
  held : ∀ p ∈ H, (w.block p).isSome
  count : ∀ p b, w.block p = some b → b.refNum = H.count p + L.count p ∧ 0 < b.refNum
  fresh : ∀ p, (w.block p).isSome → 0 < p ∧ p ≤ w.mallocs
  total : ∃ A : Finset Nat, (∀ p, p ∈ A ↔ (w.block p).isSome) ∧ w.gBlockNumber = A.card

theorem next_update {w w' : World} {p : Nat} {b : Block}
    (h : w'.block = Function.update w.block p (some b)) :
    w'.next = Function.update w.next p b.next := by
  funext q
  by_cases hq : q = p
  · subst hq; simp [World.next, h]
  · simp [World.next, h, Function.update_of_ne hq]

theorem next_eq {w : World} {p : Nat} {b : Block} (hb : w.block p = some b) :
    w.next p = b.next := by
  simp [World.next, hb]

/-- A block that keeps its `next`. -/
theorem next_same {w w' : World} {p : Nat} {b b' : Block} (hb : w.block p = some b)
    (h : w'.block = Function.update w.block p (some b')) (hnext : b'.next = b.next) :
    w'.next = w.next := by
  rw [next_update h, hnext, ← next_eq hb, Function.update_eq_self]

namespace Refs

variable {w w' : World} {L L' : List Nat} {H H' : Multiset Nat} {p : Nat} {b b' : Block}

theorem exists_block (h : Refs w L H) (hp : p ∈ H ∨ p ∈ L) : ∃ b, w.block p = some b :=
  Option.isSome_iff_exists.mp (hp.elim (h.held p) (h.listed p))

/-- Nothing changes that the counts depend on. -/
theorem congr (h : Refs w L H) (hblock : w'.block = w.block) (hhead : w'.head = w.head)
    (hmallocs : w'.mallocs = w.mallocs) (hg : w'.gBlockNumber = w.gBlockNumber) : Refs w' L H := by
  have hnext : w'.next = w.next := by
    funext q
    rw [World.next, World.next, hblock]
  refine ⟨?_, ?_, ?_, ?_, ?_, ?_⟩
  · rw [hnext, hhead]; exact h.chain
  · rw [hblock]; exact h.listed
  · rw [hblock]; exact h.held
  · rw [hblock]; exact h.count
  · rw [hblock, hmallocs]; exact h.fresh
  · rw [hblock, hg]; exact h.total

/-- The list, if one block changes and keeps its `next`. -/
theorem chain_same (h : Refs w L H) (hb : w.block p = some b)
    (hblock : w'.block = Function.update w.block p (some b')) (hnext : b'.next = b.next) :
    Chain w'.next 0 w.head L := by
  rw [next_same hb hblock hnext]
  exact h.chain

/-- Every block of the list was malloc'ed, and is on it once. -/
theorem length_le (h : Refs w L H) : L.length ≤ w.mallocs := by
  have hsub : L ⊆ List.range' 1 w.mallocs := fun p hp => by
    have := h.fresh p (h.listed p hp)
    exact List.mem_range'_1.mpr (by omega)
  simpa using (h.chain.nodup.subperm hsub).length_le

/-- The pointer the next `malloc` returns is not in use. -/
theorem fresh_none (h : Refs w L H) : w.block (w.mallocs + 1) = none := by
  rw [← Option.not_isSome_iff_eq_none]
  intro hsome
  have := h.fresh _ hsome
  omega

theorem count_fresh (h : Refs w L H) :
    H.count (w.mallocs + 1) = 0 ∧ L.count (w.mallocs + 1) = 0 := by
  have hnot : ¬ (w.block (w.mallocs + 1)).isSome := by simp [h.fresh_none]
  exact ⟨Multiset.count_eq_zero_of_notMem fun hmem => hnot (h.held _ hmem),
    List.count_eq_zero_of_not_mem fun hmem => hnot (h.listed _ hmem)⟩

theorem not_listed (h : Refs w L (p ::ₘ H)) (hb : w.block p = some b) (hle : b.refNum ≤ 1) :
    p ∉ L ∧ p ∉ H := by
  have hcount := (h.count p b hb).1
  rw [Multiset.count_cons_self] at hcount
  constructor
  · intro hmem
    have := List.count_pos_iff.mpr hmem
    omega
  · intro hmem
    have := Multiset.count_pos.mpr hmem
    omega

/-- One block changes, and perhaps who holds it. -/
theorem update (h : Refs w L H) (hp : (w.block p).isSome)
    (hblock : w'.block = Function.update w.block p (some b')) (hmallocs : w'.mallocs = w.mallocs)
    (hg : w'.gBlockNumber = w.gBlockNumber) (hchain : Chain w'.next 0 w'.head L')
    (hcount : b'.refNum = H'.count p + L'.count p ∧ 0 < b'.refNum)
    (hothers : ∀ q, q ≠ p → H'.count q = H.count q ∧ L'.count q = L.count q) : Refs w' L' H' := by
  have hsome : ∀ q, (w'.block q).isSome ↔ (w.block q).isSome := fun q => by
    by_cases hq : q = p
    · subst hq; simp [hblock, hp]
    · simp [hblock, Function.update_of_ne hq]
  refine ⟨hchain, fun q hq => ?_, fun q hq => ?_, fun q b hb => ?_, fun q hq => ?_, ?_⟩
  · by_cases hqp : q = p
    · exact (hsome q).mpr (hqp ▸ hp)
    · refine (hsome q).mpr (h.listed q ?_)
      rw [← List.count_pos_iff, ← (hothers q hqp).2]
      exact List.count_pos_iff.mpr hq
  · by_cases hqp : q = p
    · exact (hsome q).mpr (hqp ▸ hp)
    · refine (hsome q).mpr (h.held q ?_)
      rw [← Multiset.count_pos, ← (hothers q hqp).1]
      exact Multiset.count_pos.mpr hq
  · by_cases hqp : q = p
    · subst hqp
      rw [hblock, Function.update_self] at hb
      cases hb
      exact hcount
    · rw [hblock, Function.update_of_ne hqp] at hb
      rw [(hothers q hqp).1, (hothers q hqp).2]
      exact h.count q b hb
  · rw [hmallocs]
    exact h.fresh q ((hsome q).mp hq)
  · obtain ⟨A, hA, hcard⟩ := h.total
    exact ⟨A, fun q => (hA q).trans (hsome q).symm, hg.trans hcard⟩

/-- References pass between the list and other holders. -/
theorem relist (h : Refs w L H) (hsome : ∀ q, (w'.block q).isSome ↔ (w.block q).isSome)
    (hnum : ∀ q b b', w.block q = some b → w'.block q = some b' → b'.refNum = b.refNum)
    (hmallocs : w'.mallocs = w.mallocs) (hg : w'.gBlockNumber = w.gBlockNumber)
    (hchain : Chain w'.next 0 w'.head L')
    (hcount : ∀ q, H'.count q + L'.count q = H.count q + L.count q) : Refs w' L' H' := by
  have hheld : ∀ q, 0 < H.count q + L.count q → (w.block q).isSome := fun q hq => by
    rcases Nat.eq_zero_or_pos (H.count q) with h0 | hpos
    · exact h.listed q (List.count_pos_iff.mp (by omega))
    · exact h.held q (Multiset.count_pos.mp hpos)
  refine ⟨hchain, fun q hq => ?_, fun q hq => ?_, fun q b' hb' => ?_, fun q hq => ?_, ?_⟩
  · have hpos := List.count_pos_iff.mpr hq
    exact (hsome q).mpr (hheld q (by rw [← hcount]; omega))
  · have hpos := Multiset.count_pos.mpr hq
    exact (hsome q).mpr (hheld q (by rw [← hcount]; omega))
  · obtain ⟨b, hb⟩ := Option.isSome_iff_exists.mp ((hsome q).mp (by rw [hb']; rfl))
    have hold := h.count q b hb
    have hsum := hcount q
    rw [hnum q b b' hb hb']
    omega
  · rw [hmallocs]
    exact h.fresh q ((hsome q).mp hq)
  · obtain ⟨A, hA, hcard⟩ := h.total
    exact ⟨A, fun q => (hA q).trans (hsome q).symm, hg.trans hcard⟩

/-- A block is freed. -/
theorem free (h : Refs w L H) (hb : w.block p = some b)
    (hblock : w'.block = Function.update w.block p none) (hmallocs : w'.mallocs = w.mallocs)
    (hg : w'.gBlockNumber = w.gBlockNumber - 1) (hchain : Chain w'.next 0 w'.head L')
    (hL : ∀ q ∈ L', q ∈ L ∧ q ≠ p) (hH : ∀ q ∈ H', q ∈ H ∧ q ≠ p)
    (hothers : ∀ q, q ≠ p → H'.count q = H.count q ∧ L'.count q = L.count q) : Refs w' L' H' := by
  have hne : ∀ q, q ≠ p → w'.block q = w.block q := fun q hq => by
    rw [hblock, Function.update_of_ne hq]
  have hself : w'.block p = none := by rw [hblock, Function.update_self]
  have hsome : ∀ q, (w'.block q).isSome → q ≠ p := fun q hq heq => by
    rw [heq, hself] at hq
    cases hq
  refine ⟨hchain, fun q hq => ?_, fun q hq => ?_, fun q c hc => ?_, fun q hq => ?_, ?_⟩
  · rw [hne q (hL q hq).2]
    exact h.listed q (hL q hq).1
  · rw [hne q (hH q hq).2]
    exact h.held q (hH q hq).1
  · have hq := hsome q (by rw [hc]; rfl)
    rw [hne q hq] at hc
    rw [(hothers q hq).1, (hothers q hq).2]
    exact h.count q c hc
  · rw [hmallocs]
    exact h.fresh q (hne q (hsome q hq) ▸ hq)
  · obtain ⟨A, hA, hcard⟩ := h.total
    refine ⟨A.erase p, fun q => ?_, ?_⟩
    · by_cases hq : q = p
      · subst hq; simp [hself]
      · rw [Finset.mem_erase, hne q hq, hA q]
        simp [hq]
    · rw [Finset.card_erase_of_mem ((hA p).mpr (by rw [hb]; rfl)), hg, hcard]

/-- A block is created, and is on the list or held. -/
theorem create (h : Refs w L H) (hp : p = w.mallocs + 1)
    (hblock : w'.block = Function.update w.block p (some b')) (hmallocs : w'.mallocs = p)
    (hg : w'.gBlockNumber = w.gBlockNumber + 1) (hchain : Chain w'.next 0 w'.head L')
    (hcount : b'.refNum = H'.count p + L'.count p ∧ 0 < b'.refNum)
    (hothers : ∀ q, q ≠ p → H'.count q = H.count q ∧ L'.count q = L.count q) : Refs w' L' H' := by
  have hnone : w.block p = none := hp ▸ h.fresh_none
  have hself : w'.block p = some b' := by rw [hblock, Function.update_self]
  have hne : ∀ q, q ≠ p → w'.block q = w.block q := fun q hq => by
    rw [hblock, Function.update_of_ne hq]
  refine ⟨hchain, fun q hq => ?_, fun q hq => ?_, fun q b hb => ?_, fun q hq => ?_, ?_⟩
  · by_cases hqp : q = p
    · rw [hqp, hself]; rfl
    · rw [hne q hqp]
      refine h.listed q ?_
      rw [← List.count_pos_iff, ← (hothers q hqp).2]
      exact List.count_pos_iff.mpr hq
  · by_cases hqp : q = p
    · rw [hqp, hself]; rfl
    · rw [hne q hqp]
      refine h.held q ?_
      rw [← Multiset.count_pos, ← (hothers q hqp).1]
      exact Multiset.count_pos.mpr hq
  · by_cases hqp : q = p
    · rw [hqp, hself] at hb
      cases hb
      rw [hqp]
      exact hcount
    · rw [hne q hqp] at hb
      rw [(hothers q hqp).1, (hothers q hqp).2]
      exact h.count q b hb
  · rw [hmallocs]
    by_cases hqp : q = p
    · omega
    · rw [hne q hqp] at hq
      have := h.fresh q hq
      omega
  · obtain ⟨A, hA, hcard⟩ := h.total
    refine ⟨insert p A, fun q => ?_, ?_⟩
    · by_cases hqp : q = p
      · rw [hqp, hself]; simp
      · rw [Finset.mem_insert, hne q hqp, hA q]
        simp [hqp]
    · rw [Finset.card_insert_of_notMem, hg, hcard]
      rw [hA p, hnone]
      simp

/-- Before the first call. -/
theorem initial (env : Env) : Refs (.initial env) [] 0 where
  chain := .nil
  listed p hp := absurd hp List.not_mem_nil
  held p hp := absurd hp (Multiset.notMem_zero p)
  count p b hb := by cases hb
  fresh p hp := by cases hp
  total := ⟨∅, fun p => by simp [World.initial], rfl⟩

end Refs

end PBase.Buffer
