/-
# `PBase.Arena.Unique` — the ids of an arena are unique and resolve to their slot

Every step of every thread keeps the table invariant and only lets the table grow
(`Grows`): groups stay full once they are full, and a stored block pointer is never
overwritten.  So what an `acquire` returned is still in the table at the end of the
run (`Written`), and `find` decodes its ids to it (`find_baseId`), whatever version
the caller keeps in the upper 32 bits.
-/
import PBase.Arena.Table

namespace PBase.Arena

open PBase.Lib

/-! ## Encoding and decoding -/

theorem baseId_eq (gs b : Nat) : baseId gs b = (gs * 1024 + b) * 1024 := by
  simp [baseId, BASE, Nat.shiftLeft_eq]


/-- `find` reads the three fields of an id back, and ignores the version. -/
theorem GlobalGroup.find_baseId (g : GlobalGroup) {i b k : Nat} (v : Nat) (hi : i < NG)
    (hb : b < N) (hk : k < N) : g.find (v <<< 32 ||| (baseId (i + 1) b + k))
      = (g.groupList i).bind fun p => ((g.groups p).blockList b).map (·, k) := by
  rw [N_eq] at hb hk
  rw [NG_eq] at hi
  have hid : baseId (i + 1) b + k < 2 ^ 32 := by rw [baseId_eq]; omega
  have hobj : (v <<< 32 ||| (baseId (i + 1) b + k)) &&& 0xFFFFFFFF = baseId (i + 1) b + k := by
    rw [← Nat.shiftLeft_add_eq_or_of_lt hid, show 0xFFFFFFFF = 2 ^ 32 - 1 from rfl,
      Nat.and_two_pow_sub_one_eq_mod, Nat.shiftLeft_eq]
    omega
  have hitem : (baseId (i + 1) b + k) &&& BASE_MARK = k := by
    rw [show BASE_MARK = 2 ^ 10 - 1 from rfl, Nat.and_two_pow_sub_one_eq_mod, baseId_eq]
    omega
  have hblk : (baseId (i + 1) b + k) >>> BASE = (i + 1) * 1024 + b := by
    rw [show BASE = 10 from rfl, Nat.shiftRight_eq_div_pow, baseId_eq]
    omega
  have hentry : ((i + 1) * 1024 + b) &&& BASE_MARK = b := by
    rw [show BASE_MARK = 2 ^ 10 - 1 from rfl, Nat.and_two_pow_sub_one_eq_mod]
    omega
  have hgroup : ((((i + 1) * 1024 + b) >>> BASE) + (2 ^ 64 - 1)) % 2 ^ 64 = i := by
    rw [show BASE = 10 from rfl, Nat.shiftRight_eq_div_pow]
    omega
  simp only [GlobalGroup.find, hobj, hitem, hblk, hentry, hgroup, bind, pure,
    Option.map_eq_bind]
  rfl

/-! ## Where a thread may be -/

/-- What a thread knows about the group it works on. -/
def Located (g : GlobalGroup) : Pc → Prop
  | .idle | .loadSize _ | .refused => True
  | .loadGroup _ gs => 0 < gs ∧ gs ≤ g.groupSize
  | .fetchAdd _ gs p | .store _ gs p _ | .fetchSub _ gs p =>
      0 < gs ∧ gs ≤ g.groupSize ∧ p = gs - 1
  | .addGroup _ gs => 0 < gs ∧ gs ≤ g.groupSize ∧ Full g (gs - 1)

/-- The table only grows. -/
structure Grows (g g' : GlobalGroup) : Prop where
  size : g.groupSize ≤ g'.groupSize
  full : ∀ i, i < g.groupSize → Full g i → Full g' i
  kept : ∀ i b blk, i < g.groupSize → (g.groups i).blockList b = some blk →
    (g'.groups i).blockList b = some blk

theorem Grows.refl (g : GlobalGroup) : Grows g g :=
  ⟨Nat.le_refl _, fun _ _ h => h, fun _ _ _ _ h => h⟩

theorem Located.mono {g g' : GlobalGroup} (hg : Grows g g') {p : Pc} (h : Located g p) :
    Located g' p := by
  have hsize := hg.size
  cases p with
  | idle | loadSize _ | refused => trivial
  | loadGroup _ gs => exact ⟨h.1, Nat.le_trans h.2 hsize⟩
  | fetchAdd _ gs p | store _ gs p _ | fetchSub _ gs p =>
      exact ⟨h.1, Nat.le_trans h.2.1 hsize, h.2.2⟩
  | addGroup _ gs =>
      obtain ⟨hpos, hle, hfull⟩ := h
      exact ⟨hpos, Nat.le_trans hle hsize, hg.full _ (by omega) hfull⟩

theorem Grows.setBlockSize (g : GlobalGroup) {p : Nat} {n : Nat}
    (hn : Full g p → N ≤ n) : Grows g (g.setBlockSize p n) where
  size := Nat.le_refl _
  full i _ hi := by
    rw [Full, g.setBlockSize_blockSize]
    split
    · subst_vars; exact hn hi
    · exact hi
  kept i b blk _ hb := by rw [g.setBlockSize_blockList]; exact hb

theorem Grows.setEntry (g : GlobalGroup) {p : Nat} {b : Nat} (blk : BlockPtr)
    (hb : (g.groups p).blockList b = none) : Grows g (g.setEntry p b blk) where
  size := Nat.le_refl _
  full i _ hi := by rw [Full, g.setEntry_blockSize]; exact hi
  kept i c blk' _ hc := by
    have hne : (i, c) ≠ (p, b) := by rintro ⟨⟩; rw [hb] at hc; cases hc
    rw [g.setEntry_blockList, if_neg hne]; exact hc

theorem Grows.addGroup {g : GlobalGroup} (hfresh : g.newGroup = g.groupSize) (gs : Nat) :
    Grows g (g.addGroup gs).2 := by
  unfold GlobalGroup.addGroup
  split
  · exact .refl g
  split
  swap
  · exact .refl g
  have hold : ∀ i, i < g.groupSize →
      Function.update g.groups g.newGroup BlockGroup.new i = g.groups i := fun i hi =>
    Function.update_of_ne (hfresh ▸ Nat.ne_of_lt hi) _ _
  refine ⟨Nat.le_succ _, fun i hi h => ?_, fun i b blk hi h => ?_⟩
  · show N ≤ (Function.update g.groups g.newGroup BlockGroup.new i).blockSize
    rw [hold i hi]; exact h
  · show (Function.update g.groups g.newGroup BlockGroup.new i).blockList b = some blk
    rw [hold i hi]; exact h

/-! ## The invariant of a run -/

variable {ι : Type} [Fintype ι] [DecidableEq ι]

/-- The table invariant against the threads of the state, each of them located. -/
structure Inv (s : State ι) : Prop where
  table : Table s.g (Pc.entry ∘ s.pc) (Pc.undo ∘ s.pc)
  located : ∀ t, Located s.g (s.pc t)

/-- A thread moves from `p` to `p'`: the views change at that thread only. -/
theorem Inv.of_table {s : State ι} (h : Inv s) {g' : GlobalGroup} {t : ι} {p' : Pc}
    (hg : Grows s.g g') (hp : Located g' p')
    (ht : Table g' (Function.update (Pc.entry ∘ s.pc) t p'.entry)
      (Function.update (Pc.undo ∘ s.pc) t p'.undo)) :
    Inv ⟨g', Function.update s.pc t p'⟩ where
  table := by simpa only [Function.comp_update] using ht
  located := by
    refine (Function.forall_update_iff _ fun _ p => Located g' p).mpr ⟨hp, fun u _ => ?_⟩
    exact (h.located u).mono hg

omit [Fintype ι] in
/-- A view of a thread, written back, changes nothing. -/
theorem update_entry {s : State ι} {t : ι} {o : Option (Nat × Nat)}
    (h : (s.pc t).entry = o) : Function.update (Pc.entry ∘ s.pc) t o = Pc.entry ∘ s.pc :=
  Function.update_eq_self_iff.mpr h.symm

omit [Fintype ι] in
theorem update_undo {s : State ι} {t : ι} {o : Option Nat}
    (h : (s.pc t).undo = o) : Function.update (Pc.undo ∘ s.pc) t o = Pc.undo ∘ s.pc :=
  Function.update_eq_self_iff.mpr h.symm

omit [DecidableEq ι] in
theorem new_inv : Inv (⟨GlobalGroup.new, fun _ => .idle⟩ : State ι) where
  table :=
    { size_pos := Nat.one_pos
      size_le := show 1 ≤ NG by decide
      fresh := rfl
      list := fun i => by
        show Function.update (fun _ => none) 0 (some 0) i = if i < 1 then some i else none
        by_cases hi : i = 0
        · subst hi; simp
        · rw [Function.update_of_ne hi, if_neg (by omega)]
      counted := fun i hi => by
        have hi0 : i = 0 := Nat.lt_one_iff.mp hi
        subst hi0
        have hzero : undos (Pc.undo ∘ fun _ : ι => Pc.idle) 0 = 0 :=
          undos_eq_zero fun t => by simp [Pc.undo]
        exact hzero.trans (Nat.zero_sub N).symm
      undone := fun t i ht => by simp [Pc.undo] at ht
      full := fun i hi => absurd (Nat.lt_of_succ_lt_succ hi) (Nat.not_lt_zero i)
      taken := fun i hi b => by
        have hi0 : i = 0 := Nat.lt_one_iff.mp hi
        subst hi0
        refine ⟨fun hb => absurd hb.2 (Nat.not_lt_zero b), ?_⟩
        rintro (hne | ⟨t, ht⟩)
        · exact absurd rfl hne
        · cases ht
      apart := fun t u e ht => by simp [Pc.entry] at ht
      unwritten := fun t i b ht => by simp [Pc.entry] at ht }
  located := fun _ => trivial

/-- What a returned block has in the table. -/
structure Written (g : GlobalGroup) (r : Ret) : Prop where
  group : r.group < g.groupSize
  entry : r.entry < N
  base : r.base = baseId (r.group + 1) r.entry
  block : (g.groups r.group).blockList r.entry = some r.block

theorem Written.mono {g g' : GlobalGroup} (hg : Grows g g') {r : Ret} (h : Written g r) :
    Written g' r :=
  ⟨Nat.lt_of_lt_of_le h.group hg.size, h.entry, h.base, hg.kept _ _ _ h.group h.block⟩

/-- One step: the invariant is kept, the table grows, and a block that is returned
has just been written to an entry that was empty. -/
theorem Inv.step {s s' : State ι} {e : Event} (h : Inv s) (hs : Step s e s') :
    Inv s' ∧ Grows s.g s'.g ∧ ∀ r, e = .acquired r →
      Written s'.g r ∧ (s.g.groups r.group).blockList r.entry = none := by
  cases hs with
  | call t ht =>
      have hg : Grows s.g { s.g with newBlock := s.g.newBlock + 1 } := { Grows.refl s.g with }
      refine ⟨h.of_table hg trivial ?_, hg, by simp⟩
      rw [update_entry (by simp [ht, Pc.entry]), update_undo (by simp [ht, Pc.undo])]
      exact { h.table with }
  | loadSize t ht =>
      refine ⟨h.of_table (.refl _) ⟨h.table.size_pos, Nat.le_refl _⟩ ?_, .refl _,
        by simp⟩
      rw [update_entry (by simp [ht, Pc.entry]), update_undo (by simp [ht, Pc.undo])]
      exact h.table
  | @loadGroup t ret gs p ht hp =>
      have hloc : 0 < gs ∧ gs ≤ s.g.groupSize := by have := h.located t; rwa [ht] at this
      have hgp : p = gs - 1 := by
        rw [h.table.list, if_pos (by omega)] at hp
        exact (Option.some.inj hp).symm
      refine ⟨h.of_table (.refl _) ⟨hloc.1, hloc.2, hgp⟩ ?_, .refl _, by simp⟩
      rw [update_entry (by simp [ht, Pc.entry]), update_undo (by simp [ht, Pc.undo])]
      exact h.table
  | @fetchAdd t ret gs p ht hlt =>
      have hloc : 0 < gs ∧ gs ≤ s.g.groupSize ∧ p = gs - 1 := by
        have := h.located t; rwa [ht] at this
      have hg : Grows s.g (s.g.setBlockSize p ((s.g.groups p).blockSize + 1)) :=
        .setBlockSize _ fun hfull => Nat.le_succ_of_le hfull
      refine ⟨h.of_table hg hloc ?_, hg, by simp⟩
      rw [update_undo (by simp [ht, Pc.undo])]
      exact h.table.fetchAdd (by omega) (by simp [ht, Pc.entry]) hlt
  | @overshoot t ret gs p ht hge =>
      have hloc : 0 < gs ∧ gs ≤ s.g.groupSize ∧ p = gs - 1 := by
        have := h.located t; rwa [ht] at this
      have hg : Grows s.g (s.g.setBlockSize p ((s.g.groups p).blockSize + 1)) :=
        .setBlockSize _ fun hfull => Nat.le_succ_of_le hfull
      refine ⟨h.of_table hg hloc ?_, hg, by simp⟩
      rw [update_entry (by simp [ht, Pc.entry])]
      exact h.table.overshoot (by omega) (by simp [ht, Pc.undo]) hge
  | @store t ret gs p bs ht =>
      have hloc : 0 < gs ∧ gs ≤ s.g.groupSize ∧ p = gs - 1 := by
        have := h.located t; rwa [ht] at this
      have hentry : (Pc.entry ∘ s.pc) t = some (p, bs) := by simp [ht, Pc.entry]
      obtain ⟨hp, hnone⟩ := h.table.unwritten t p bs hentry
      have hg : Grows s.g (s.g.setEntry p bs ret) := .setEntry _ _ hnone
      refine ⟨h.of_table hg trivial ?_, hg, ?_⟩
      · rw [update_undo (by simp [ht, Pc.undo])]
        exact h.table.store hentry
      · rintro r ⟨⟩
        refine ⟨⟨hp, (h.table.entry_lt hentry).1, ?_, ?_⟩, hnone⟩
        · show baseId gs bs = baseId (p + 1) bs
          rw [show p + 1 = gs by omega]
        · show ((s.g.setEntry p bs ret).groups p).blockList bs = some ret
          rw [s.g.setEntry_blockList, if_pos rfl]
  | @fetchSub t ret gs p ht =>
      have hloc : 0 < gs ∧ gs ≤ s.g.groupSize ∧ p = gs - 1 := by
        have := h.located t; rwa [ht] at this
      have hundo : (Pc.undo ∘ s.pc) t = some p := by simp [ht, Pc.undo]
      have hover := h.table.undo_over hundo
      have hg : Grows s.g (s.g.setBlockSize p ((s.g.groups p).blockSize - 1)) :=
        .setBlockSize _ fun _ => by omega
      have hfull : Full (s.g.setBlockSize p ((s.g.groups p).blockSize - 1)) (gs - 1) := by
        rw [Full, s.g.setBlockSize_blockSize, if_pos hloc.2.2.symm]
        omega
      refine ⟨h.of_table hg ⟨hloc.1, hloc.2.1, hfull⟩ ?_, hg, by simp⟩
      rw [update_entry (by simp [ht, Pc.entry])]
      exact h.table.fetchSub hundo
  | @addGroup t ret gs ht _ =>
      have hloc : 0 < gs ∧ gs ≤ s.g.groupSize ∧ Full s.g (gs - 1) := by
        have := h.located t; rwa [ht] at this
      have hg : Grows s.g (s.g.addGroup gs).2 := .addGroup h.table.fresh gs
      refine ⟨h.of_table hg trivial ?_, hg, by simp⟩
      rw [update_entry (by simp [ht, Pc.entry]), update_undo (by simp [ht, Pc.undo])]
      exact h.table.addGroup hloc.1 hloc.2.2
  | refuse t ht _ =>
      refine ⟨h.of_table (.refl _) trivial ?_, .refl _, by simp⟩
      rw [update_entry (by simp [ht, Pc.entry]), update_undo (by simp [ht, Pc.undo])]
      exact h.table

/-- The whole run: the invariant, every returned block still in the table, and no
entry written for two of them. -/
theorem run_inv {es : List Event} {s : State ι} (h : (arena ι).Run es s) :
    Inv s ∧ (∀ r ∈ returns es, Written s.g r) ∧
      ((returns es).map fun r => (r.group, r.entry)).Nodup := by
  induction h with
  | start hs => subst hs; exact ⟨new_inv, by simp [returns], by simp [returns]⟩
  | @next es s s' e _ hs ih =>
      obtain ⟨hinv, hwritten, hnodup⟩ := ih
      obtain ⟨hinv', hg, hret⟩ := hinv.step hs
      refine ⟨hinv', ?_, ?_⟩
      · intro r hr
        rw [returns_append, List.mem_append] at hr
        rcases hr with hr | hr
        · exact (hwritten r hr).mono hg
        · cases e with
          | acquired r' =>
              have hrr : r = r' := by simpa [returns] using hr
              exact hrr ▸ (hret r' rfl).1
          | tau | refused => simp [returns] at hr
      · rw [returns_append, List.map_append]
        cases e with
        | acquired r' =>
            refine List.Nodup.append hnodup (by simp [returns]) ?_
            intro x hx hx'
            obtain ⟨r, hr, rfl⟩ := List.mem_map.mp hx
            simp only [returns, List.map_cons, List.map_nil, List.mem_singleton,
              Prod.mk.injEq] at hx'
            -- an entry already written is not empty
            have hw := (hwritten r hr).block
            rw [hx'.1, hx'.2, (hret r' rfl).2] at hw
            cases hw
        | tau | refused => simpa [returns] using hnodup

omit [Fintype ι] in
/-- A call up to its `fetch_add`, that no other thread interrupts. -/
theorem run_load {es : List Event} {s : State ι} {p : Nat} (t : ι) (h : (arena ι).Run es s)
    (ht : s.pc t = .idle) (hp : s.g.groupList (s.g.groupSize - 1) = some p) :
    (arena ι).Run (es ++ [.tau, .tau, .tau])
      { g := { s.g with newBlock := s.g.newBlock + 1 }
        pc := Function.update s.pc t (.fetchAdd s.g.newBlock s.g.groupSize p) } := by
  have run := ((h.next (.call t ht)).next (.loadSize t (Function.update_self ..))).next
    (.loadGroup t (Function.update_self ..) hp)
  simp only [State.goto, Function.update_idem, List.append_assoc] at run
  exact run

omit [Fintype ι] in
/-- An `acquire` in a group that has room. -/
theorem run_acquire {es : List Event} {s : State ι} {p : Nat} (t : ι) (h : (arena ι).Run es s)
    (ht : s.pc t = .idle) (hp : s.g.groupList (s.g.groupSize - 1) = some p)
    (hroom : (s.g.groups p).blockSize < N) :
    ∃ r s', (arena ι).Run (es ++ [.tau, .tau, .tau, .tau, .acquired r]) s' ∧ s'.pc = s.pc ∧
      s'.g.groupSize = s.g.groupSize ∧ s'.g.groupList = s.g.groupList ∧
      s'.g.newGroup = s.g.newGroup ∧
      (s'.g.groups p).blockSize = (s.g.groups p).blockSize + 1 := by
  have run := ((run_load t h ht hp).next (.fetchAdd t (Function.update_self ..) hroom)).next
    (.store t (Function.update_self ..))
  simp only [Function.update_idem, List.append_assoc] at run
  rw [← ht, Function.update_eq_self] at run
  exact ⟨_, _, run, rfl, rfl, rfl, rfl, by simp [GlobalGroup.setBlockSize_blockSize]⟩

omit [Fintype ι] in
/-- A thread takes blocks until the first group has `n`. -/
theorem run_fill (t : ι) {n : Nat} (hn : n ≤ N) : ∃ es s, (arena ι).Run es s ∧
    (returns es).length = n ∧ s.pc = (fun _ => .idle) ∧ s.g.groupSize = 1 ∧
    s.g.groupList = Function.update (fun _ => none) 0 (some 0) ∧ s.g.newGroup = 1 ∧
    (s.g.groups 0).blockSize = n := by
  induction n with
  | zero => exact ⟨[], _, .start rfl, rfl, rfl, rfl, rfl, rfl, rfl⟩
  | succ n ih =>
      obtain ⟨es, s, h, hreturns, hpc, hsize, hlist, hnew, hblocks⟩ := ih (Nat.le_of_succ_le hn)
      obtain ⟨r, s', h', hpc', hsize', hlist', hnew', hblocks'⟩ := run_acquire t h (by rw [hpc])
        (show s.g.groupList (s.g.groupSize - 1) = some 0 by rw [hsize, hlist]; rfl)
        (hblocks ▸ hn)
      refine ⟨_, s', h', ?_, hpc'.trans hpc, hsize'.trans hsize, hlist'.trans hlist,
        hnew'.trans hnew, hblocks'.trans (congrArg (· + 1) hblocks)⟩
      rw [returns_append, List.length_append, hreturns]
      rfl

/-- Two threads and a group with one entry left.  One gets it at its `fetch_add`; the other
overshoots, takes its count back, and adds a group. -/
theorem run_overshot : ∃ (es : List Event) (s : State Bool) (b : BlockPtr), (arena Bool).Run es s ∧
    (returns es).length = 1023 ∧ s.pc true = .store b 1 0 1023 ∧ s.pc false = .loadSize (b + 1) ∧
    s.g.groupSize = 2 ∧ s.g.groupList 1 = some 1 ∧ (s.g.groups 1).blockSize = 0 := by
  obtain ⟨es, s, filled, hreturns, hpc, hsize, hlist, hnew, hblocks⟩ :=
    run_fill true (show 1023 ≤ N by decide)
  have hp : s.g.groupList (s.g.groupSize - 1) = some 0 := by
    rw [hsize, hlist]
    rfl
  have loaded := run_load false (run_load true filled (by rw [hpc]) hp) (by simp [hpc]) hp
  have counted := loaded.next (.fetchAdd true
    (show State.pc _ true = .fetchAdd s.g.newBlock s.g.groupSize 0 by simp)
    (show (s.g.groups 0).blockSize < N by rw [hblocks]; decide))
  have overshot := counted.next (.overshoot false
    (show State.pc _ false = .fetchAdd (s.g.newBlock + 1) s.g.groupSize 0 by simp)
    (by simp [GlobalGroup.setBlockSize, hblocks, N_eq]))
  have undone := overshot.next (.fetchSub false
    (show State.pc _ false = .fetchSub (s.g.newBlock + 1) s.g.groupSize 0 by simp))
  have added := undone.next (.addGroup false
    (show State.pc _ false = .addGroup (s.g.newBlock + 1) s.g.groupSize by simp)
    (by simp [GlobalGroup.addGroup, hsize, NG_eq]))
  refine ⟨_, _, s.g.newBlock, added, ?_, by simp [hsize, hblocks], by simp, ?_, ?_, ?_⟩
  · simp [returns_append, hreturns, returns]
  · simp [GlobalGroup.addGroup, hsize, NG_eq]
  · simp [GlobalGroup.addGroup, hsize, hnew, NG_eq]
  · simp [GlobalGroup.addGroup, hsize, hnew, NG_eq, BlockGroup.new]

/-- **Arena ids are unique and resolve to their slot.**  In every interleaving of
any number of threads: a returned base is not 0, is a multiple of `N` and leaves
room for `N` ids below 2^32; the id ranges of two returned blocks are disjoint; no
`block_list` entry is written twice; `find` maps every id of a returned block, with
any version, to that block and item, however many blocks were acquired since; and a
block is refused only when every index of all `NG` groups has been given out. -/
theorem acquire_unique {es : List Event} {s : State ι} (h : (arena ι).Run es s) :
    (∀ r ∈ returns es, r.base ≠ 0 ∧ N ∣ r.base ∧ r.base + N - 1 < 2 ^ 32) ∧
    (returns es).Pairwise (fun r r' => ∀ k, k < N → ∀ k', k' < N → r.base + k ≠ r'.base + k') ∧
    ((returns es).map fun r => (r.group, r.entry)).Nodup ∧
    (∀ r ∈ returns es, ∀ k, k < N → ∀ version, version < 2 ^ 32 →
      s.g.find (version <<< 32 ||| (r.base + k)) = some (r.block, k)) ∧
    (∀ s', Step s .refused s' → s.g.groupSize = NG ∧ ∀ i, i < NG → ∀ b, b < N →
      (s.g.groups i).blockList b ≠ none ∨ ∃ t, (s.pc t).entry = some (i, b)) := by
  obtain ⟨hinv, hwritten, hnodup⟩ := run_inv h
  have hgroup : ∀ r ∈ returns es, r.group < NG := fun r hr =>
    Nat.lt_of_lt_of_le (hwritten r hr).group hinv.table.size_le
  refine ⟨fun r hr => ?_, ?_, hnodup, fun r hr k hk v _ => ?_, fun s' hs => ?_⟩
  · have hw := hwritten r hr
    have hi := hgroup r hr
    have hb := hw.entry
    rw [hw.base, baseId_eq, N_eq]
    rw [NG_eq] at hi
    rw [N_eq] at hb
    exact ⟨by omega, Nat.dvd_mul_left _ _, by omega⟩
  · refine (List.pairwise_map.mp hnodup).imp_of_mem fun {r r'} hr hr' hne k hk k' hk' => ?_
    have hw := hwritten r hr
    have hw' := hwritten r' hr'
    have hb := hw.entry
    have hb' := hw'.entry
    rw [hw.base, hw'.base, baseId_eq, baseId_eq]
    rw [N_eq] at hb hb' hk hk'
    intro heq
    exact hne (Prod.ext (by simp only; omega) (by simp only; omega))
  · have hw := hwritten r hr
    rw [hw.base, GlobalGroup.find_baseId s.g v (hgroup r hr) hw.entry hk, hinv.table.list,
      if_pos hw.group]
    simp [hw.block]
  · cases hs with
    | @refuse t ret gs ht hadd =>
        have hloc : 0 < gs ∧ gs ≤ s.g.groupSize ∧ Full s.g (gs - 1) := by
          have := hinv.located t; rwa [ht] at this
        -- `add_group` answers false only in its last branch
        have hsize : s.g.groupSize = gs ∧ ¬ s.g.groupSize < NG := by
          unfold GlobalGroup.addGroup at hadd
          split at hadd
          · cases hadd
          · rename_i hgs
            split at hadd
            · cases hadd
            · rename_i hlt; exact ⟨not_not.mp hgs, hlt⟩
        have hng : s.g.groupSize = NG := by
          have := hinv.table.size_le
          omega
        refine ⟨hng, fun i hi b hb => ?_⟩
        have hfull : Full s.g i := by
          rcases Nat.lt_or_ge (i + 1) s.g.groupSize with hlt | hge
          · exact hinv.table.full i hlt
          · have : i = gs - 1 := by omega
            exact this ▸ hloc.2.2
        exact (hinv.table.taken i (hng ▸ hi) b).mp ⟨hb, Nat.lt_of_lt_of_le hb hfull⟩

/-- Two threads that get the last block of the first group and the first of the second. -/
theorem acquire_unique_overshot : ∃ (es : List Event) (s : State Bool) (r r' : Ret),
    (arena Bool).Run es s ∧ (returns es).length = 1025 ∧ r ∈ returns es ∧ r' ∈ returns es ∧
    r.base = 2096128 ∧ r'.base = 2097152 ∧
    s.g.find (7 <<< 32 ||| (r.base + 5)) = some (r.block, 5) ∧
    s.g.find (7 <<< 32 ||| (r'.base + 5)) = some (r'.block, 5) ∧ (returns es).Pairwise
      fun r r' => ∀ k, k < N → ∀ k', k' < N → r.base + k ≠ r'.base + k' := by
  obtain ⟨es, s, b, overshot, hreturns, ht, hf, hsize, hlist, hblocks⟩ := run_overshot
  have loaded := ((overshot.next (.store true ht)).next (.loadSize false
    (show State.pc _ false = .loadSize (b + 1) by simp [hf]))).next (.loadGroup (p := 1) false
    (show State.pc _ false = .loadGroup (b + 1) 2 by simp [State.goto, hsize])
    (by simp [State.goto, hlist]))
  have run := (loaded.next (.fetchAdd false
    (show State.pc _ false = .fetchAdd (b + 1) 2 1 by simp [State.goto])
    (by simp [State.goto, hblocks, N_eq]))).next (.store false
    (show State.pc _ false = .store (b + 1) 2 1 0 by simp [State.goto, hblocks]))
  obtain ⟨-, hapart, -, hfind, -⟩ := acquire_unique run
  refine ⟨_, _, ⟨baseId 1 1023, b, 0, 1023⟩, ⟨baseId 2 0, b + 1, 1, 0⟩, run, ?_, ?_, ?_, rfl, rfl,
    hfind _ ?_ 5 (by decide) 7 (by decide), hfind _ ?_ 5 (by decide) 7 (by decide), hapart⟩
  all_goals simp [returns_append, returns, hreturns]

end PBase.Arena
