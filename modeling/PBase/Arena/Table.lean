/-
# `PBase.Arena.Table` — the invariant of the group table

`block_size` of a group may pass `N`: a thread that finds the group full has
already incremented it, and undoes that with a later `fetch_sub`.  So the counter
alone does not say which entries are taken.  The invariant (`Table`) reads it
together with the threads:

    threads between their failed fetch_add and its fetch_sub  =  block_size - N

(truncated subtraction).  An index below `N` is therefore only ever returned by
`fetch_add` while no undo is pending, and each such index is returned once.

`Table` does not look at a whole thread state but at two views of it: the entry a
thread is about to store (`Pc.entry`) and the group whose counter it is about to
undo (`Pc.undo`).  Each access of `add_block` then has one lemma, and the accesses
that change neither view need none.
-/
import PBase.Arena.Model

namespace PBase.Arena

open PBase.Lib

/-! ## The two views of a thread -/

/-- The entry a thread got from `fetch_add` and has not stored yet. -/
def Pc.entry : Pc → Option (Nat × Nat)
  | .store _ _ p bs => some (p, bs)
  | _ => none

/-- The group whose counter a thread has incremented in vain. -/
def Pc.undo : Pc → Option Nat
  | .fetchSub _ _ p => some p
  | _ => none

/-- A group is full: all its indices have been given out. -/
def Full (g : GlobalGroup) (i : Nat) : Prop := N ≤ (g.groups i).blockSize

variable {ι : Type} [Fintype ι]

/-- The increments of group `i`'s counter that are still to be undone. -/
def undos (undo : ι → Option Nat) (i : Nat) : Nat := tally (· == some i) undo

theorem undos_pos {undo : ι → Option Nat} {t : ι} {i : Nat} (h : undo t = some i) :
    0 < undos undo i :=
  tally_pos _ _ (i := t) (by simp [h])

theorem undos_eq_zero {undo : ι → Option Nat} {i : Nat} (h : ∀ t, undo t ≠ some i) :
    undos undo i = 0 :=
  tally_eq_zero _ _ fun t => beq_eq_false_iff_ne.mpr (h t)

theorem undos_add [DecidableEq ι] {undo : ι → Option Nat} {t : ι} (h : undo t = none)
    (p i : Nat) : undos (Function.update undo t (some p)) i
      = undos undo i + if i = p then 1 else 0 := by
  have hupd := tally_update (· == some i) undo t (some p)
  by_cases hip : i = p
  · subst hip; simpa [h, undos] using hupd
  · have hpi : (p == i) = false := beq_eq_false_iff_ne.mpr (Ne.symm hip)
    simpa [h, undos, hip, hpi] using hupd

theorem undos_sub [DecidableEq ι] {undo : ι → Option Nat} {t : ι} {p : Nat}
    (h : undo t = some p) (i : Nat) : undos (Function.update undo t none) i
      = undos undo i - if i = p then 1 else 0 := by
  have hupd := tally_update (· == some i) undo t none
  by_cases hip : i = p
  · subst hip; simp [h] at hupd; simp [undos]; omega
  · have hpi : (p == i) = false := beq_eq_false_iff_ne.mpr (Ne.symm hip)
    simpa [h, undos, hip, hpi] using hupd

/-- The invariant of the group table, against the entries claimed but not stored
and the increments not yet undone. -/
structure Table (g : GlobalGroup) (entry : ι → Option (Nat × Nat))
    (undo : ι → Option Nat) : Prop where
  size_pos : 0 < g.groupSize
  size_le : g.groupSize ≤ NG
  fresh : g.newGroup = g.groupSize
  list : ∀ i, g.groupList i = if i < g.groupSize then some i else none
  counted : ∀ i, i < g.groupSize → undos undo i = (g.groups i).blockSize - N
  undone : ∀ t i, undo t = some i → i < g.groupSize
  full : ∀ i, i + 1 < g.groupSize → Full g i
  /-- An index is given out exactly if its entry is stored or a thread is about to store it. -/
  taken : ∀ i, i < g.groupSize → ∀ b, (b < N ∧ b < (g.groups i).blockSize) ↔
    ((g.groups i).blockList b ≠ none ∨ ∃ t, entry t = some (i, b))
  apart : ∀ t u e, entry t = some e → entry u = some e → t = u
  unwritten : ∀ t i b, entry t = some (i, b) →
    i < g.groupSize ∧ (g.groups i).blockList b = none

namespace Table

variable {g : GlobalGroup} {entry : ι → Option (Nat × Nat)} {undo : ι → Option Nat}

/-- A claimed entry is an index below `N`, and its group's counter is past it. -/
theorem entry_lt (h : Table g entry undo) {t : ι} {i : Nat} {b : Nat}
    (ht : entry t = some (i, b)) : b < N ∧ b < (g.groups i).blockSize :=
  (h.taken i (h.unwritten t i b ht).1 b).mpr (.inr ⟨t, ht⟩)

/-- `fetch_add` below `N`: the thread claims a fresh index. -/
theorem fetchAdd [DecidableEq ι] (h : Table g entry undo) {t : ι} {p : Nat} (hp : p < g.groupSize)
    (ht : entry t = none) (hlt : (g.groups p).blockSize < N) :
    Table (g.setBlockSize p ((g.groups p).blockSize + 1))
      (Function.update entry t (some (p, (g.groups p).blockSize))) undo where
  size_pos := h.size_pos
  size_le := h.size_le
  fresh := h.fresh
  list := h.list
  counted i hi := by
    rw [g.setBlockSize_blockSize, h.counted i hi]
    split
    · subst_vars; omega
    · rfl
  undone := h.undone
  full i hi := by
    have hfull := h.full i hi
    have hip : i ≠ p := by rintro rfl; exact absurd hlt (Nat.not_lt.mpr hfull)
    rwa [Full, g.setBlockSize_blockSize, if_neg hip]
  taken i hi b := by
    have hold := h.taken i hi b
    rw [g.setBlockSize_blockSize, g.setBlockSize_blockList]
    -- the only new index is the old counter value, which the thread now claims
    by_cases hnew : (i, b) = (p, (g.groups p).blockSize)
    · cases hnew
      simpa [hlt] using .inr ⟨t, Function.update_self ..⟩
    · have hsame : (b < N ∧ b < if i = p then (g.groups p).blockSize + 1
          else (g.groups i).blockSize) ↔ (b < N ∧ b < (g.groups i).blockSize) := by
        split
        · subst_vars
          have : b ≠ (g.groups i).blockSize := fun hb => hnew (by rw [hb])
          omega
        · rfl
      rw [hsame, hold]
      refine or_congr_right (exists_congr fun u => ?_)
      by_cases hu : u = t
      · subst hu; simp only [ht, Function.update_self, Option.some.injEq, reduceCtorEq, false_iff]
        exact fun h => hnew h.symm
      · rw [Function.update_of_ne hu]
  apart u v e hu hv := by
    -- no thread holds the index just returned: it was not below the counter
    have hnew : ∀ w, entry w ≠ some (p, (g.groups p).blockSize) := fun w hw =>
      Nat.lt_irrefl _ (h.entry_lt hw).2
    by_cases hut : u = t <;> by_cases hvt : v = t
    · rw [hut, hvt]
    · subst hut
      rw [Function.update_self] at hu
      rw [Function.update_of_ne hvt, ← hu] at hv
      exact absurd hv (hnew v)
    · subst hvt
      rw [Function.update_self] at hv
      rw [Function.update_of_ne hut, ← hv] at hu
      exact absurd hu (hnew u)
    · rw [Function.update_of_ne hut] at hu
      rw [Function.update_of_ne hvt] at hv
      exact h.apart u v e hu hv
  unwritten u i b hu := by
    rw [g.setBlockSize_blockList]
    by_cases hut : u = t
    · subst hut
      simp only [Function.update_self, Option.some.injEq, Prod.mk.injEq] at hu
      obtain ⟨rfl, rfl⟩ := hu
      refine ⟨hp, by_contra fun hne => ?_⟩
      exact Nat.lt_irrefl _ ((h.taken p hp _).mpr (.inl hne)).2
    · rw [Function.update_of_ne hut] at hu
      exact h.unwritten u i b hu

/-- A step that moves a counter past `N`, up or down, and leaves the entries alone. -/
theorem recount (h : Table g entry undo) {undo' : ι → Option Nat} {p : Nat} {n : Nat}
    (hn : N ≤ n) (hp : N ≤ (g.groups p).blockSize)
    (hcount : ∀ i, i < g.groupSize →
      undos undo' i = (if i = p then n else (g.groups i).blockSize) - N)
    (hundo : ∀ t i, undo' t = some i → i < g.groupSize) :
    Table (g.setBlockSize p n) entry undo' where
  size_pos := h.size_pos
  size_le := h.size_le
  fresh := h.fresh
  list := h.list
  counted i hi := by rw [g.setBlockSize_blockSize]; exact hcount i hi
  undone := hundo
  full i hi := by
    rw [Full, g.setBlockSize_blockSize]
    split
    · exact hn
    · exact h.full i hi
  taken i hi b := by
    rw [g.setBlockSize_blockSize, g.setBlockSize_blockList, ← h.taken i hi b]
    split
    · subst_vars; omega
    · rfl
  apart := h.apart
  unwritten u i b hu := by rw [g.setBlockSize_blockList]; exact h.unwritten u i b hu

/-- `fetch_add` past `N`: one more increment to undo. -/
theorem overshoot [DecidableEq ι] (h : Table g entry undo) {t : ι} {p : Nat} (hp : p < g.groupSize)
    (ht : undo t = none) (hge : ¬ (g.groups p).blockSize < N) :
    Table (g.setBlockSize p ((g.groups p).blockSize + 1))
      entry (Function.update undo t (some p)) := by
  refine h.recount (by omega) (by omega) (fun i hi => ?_) (fun u i hu => ?_)
  · rw [undos_add ht, h.counted i hi]
    by_cases hip : i = p
    · subst hip
      rw [if_pos rfl, if_pos rfl]
      omega
    · rw [if_neg hip, if_neg hip]
      omega
  · by_cases hut : u = t
    · subst hut
      rw [Function.update_self, Option.some.injEq] at hu
      exact hu ▸ hp
    · exact h.undone u i (by rwa [Function.update_of_ne hut] at hu)

/-- While an increment is to be undone the counter is past `N`. -/
theorem undo_over (h : Table g entry undo) {t : ι} {p : Nat} (ht : undo t = some p) :
    N < (g.groups p).blockSize := by
  have hpos := undos_pos ht
  have hcount := h.counted p (h.undone t p ht)
  omega

/-- `fetch_sub`: the increment is undone, and the group stays full. -/
theorem fetchSub [DecidableEq ι] (h : Table g entry undo) {t : ι} {p : Nat} (ht : undo t = some p) :
    Table (g.setBlockSize p ((g.groups p).blockSize - 1))
      entry (Function.update undo t none) := by
  have hover := h.undo_over ht
  refine h.recount (by omega) (by omega) (fun i hi => ?_) (fun u i hu => ?_)
  · rw [undos_sub ht, h.counted i hi]
    by_cases hip : i = p
    · subst hip
      rw [if_pos rfl, if_pos rfl]
      omega
    · rw [if_neg hip, if_neg hip]
      omega
  · by_cases hut : u = t
    · subst hut; simp at hu
    · exact h.undone u i (by rwa [Function.update_of_ne hut] at hu)

/-- The store of the block pointer turns a claimed entry into a written one. -/
theorem store [DecidableEq ι] (h : Table g entry undo) {t : ι} {p : Nat} {bs : Nat} {ret : BlockPtr}
    (ht : entry t = some (p, bs)) :
    Table (g.setEntry p bs ret) (Function.update entry t none) undo where
  size_pos := h.size_pos
  size_le := h.size_le
  fresh := h.fresh
  list := h.list
  counted i hi := by rw [g.setEntry_blockSize]; exact h.counted i hi
  undone := h.undone
  full i hi := by rw [Full, g.setEntry_blockSize]; exact h.full i hi
  taken i hi b := by
    rw [g.setEntry_blockSize, g.setEntry_blockList, h.taken i hi b]
    by_cases hne : (i, b) = (p, bs)
    · cases hne
      simpa using .inr ⟨t, ht⟩
    · rw [if_neg hne]
      refine or_congr_right (exists_congr fun u => ?_)
      by_cases hu : u = t
      · subst hu; simp only [ht, Function.update_self, Option.some.injEq, reduceCtorEq, iff_false]
        exact fun h => hne h.symm
      · rw [Function.update_of_ne hu]
  apart u v e hu hv := by
    have hut : u ≠ t := by rintro rfl; simp at hu
    have hvt : v ≠ t := by rintro rfl; simp at hv
    rw [Function.update_of_ne hut] at hu
    rw [Function.update_of_ne hvt] at hv
    exact h.apart u v e hu hv
  unwritten u i b hu := by
    have hut : u ≠ t := by rintro rfl; simp at hu
    rw [Function.update_of_ne hut] at hu
    -- another thread's entry is not the one stored
    have hne : (i, b) ≠ (p, bs) := fun he => hut (h.apart u t _ (he ▸ hu) ht)
    rw [g.setEntry_blockList, if_neg hne]
    exact h.unwritten u i b hu

/-- `add_group` by a thread that found group `gs - 1` full. -/
theorem addGroup (h : Table g entry undo) {gs : Nat} (hpos : 0 < gs)
    (hfull : Full g (gs - 1)) : Table (g.addGroup gs).2 entry undo := by
  unfold GlobalGroup.addGroup
  split
  · exact h
  rename_i hgs
  replace hgs : g.groupSize = gs := not_not.mp hgs
  subst hgs
  split
  swap
  · exact h
  rename_i hlt
  -- the new group has the index `group_size`, and no thread refers to it yet
  have hold : ∀ i, i < g.groupSize →
      Function.update g.groups g.newGroup BlockGroup.new i = g.groups i := fun i hi =>
    Function.update_of_ne (h.fresh ▸ Nat.ne_of_lt hi) _ _
  have hnew : Function.update g.groups g.newGroup BlockGroup.new g.groupSize
      = BlockGroup.new := by rw [← h.fresh, Function.update_self]
  exact
    { size_pos := Nat.succ_pos _
      size_le := hlt
      fresh := congrArg (· + 1) h.fresh
      list := fun i => by
        show Function.update _ _ _ i = if i < g.groupSize + 1 then _ else _
        rw [Function.update_apply, h.fresh, h.list i]
        by_cases hi : i = g.groupSize
        · simp [hi]
        · rw [if_neg hi]
          by_cases hlt : i < g.groupSize
          · rw [if_pos hlt, if_pos (by omega)]
          · rw [if_neg hlt, if_neg (by omega)]
      counted := fun i hi => by
        show _ = (Function.update g.groups g.newGroup BlockGroup.new i).blockSize - N
        rcases Nat.lt_succ_iff_lt_or_eq.mp hi with hi | rfl
        · rw [hold i hi]; exact h.counted i hi
        · rw [hnew]
          exact undos_eq_zero fun t ht => Nat.lt_irrefl _ (h.undone t _ ht)
      undone := fun t i ht => Nat.lt_succ_of_lt (h.undone t i ht)
      full := fun i hi => by
        have hi' : i < g.groupSize := Nat.lt_of_succ_lt_succ hi
        show N ≤ (Function.update g.groups g.newGroup BlockGroup.new i).blockSize
        rw [hold i hi']
        rcases Nat.lt_or_ge (i + 1) g.groupSize with hlt' | hge
        · exact h.full i hlt'
        · rwa [show i = g.groupSize - 1 by omega]
      taken := fun i hi b => by
        show (_ ∧ b < (Function.update g.groups g.newGroup BlockGroup.new i).blockSize) ↔
          ((Function.update g.groups g.newGroup BlockGroup.new i).blockList b ≠ none ∨ _)
        rcases Nat.lt_succ_iff_lt_or_eq.mp hi with hi | rfl
        · rw [hold i hi]; exact h.taken i hi b
        · rw [hnew]
          simp only [BlockGroup.new, Nat.not_lt_zero, and_false, ne_eq, not_true_eq_false,
            false_or, false_iff]
          rintro ⟨t, ht⟩
          exact Nat.lt_irrefl _ (h.unwritten t _ b ht).1
      apart := h.apart
      unwritten := fun t i b ht => by
        obtain ⟨hi, hb⟩ := h.unwritten t i b ht
        refine ⟨Nat.lt_succ_of_lt hi, ?_⟩
        show (Function.update g.groups g.newGroup BlockGroup.new i).blockList b = none
        rw [hold i hi]; exact hb }

end Table

end PBase.Arena
