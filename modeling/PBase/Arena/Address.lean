/-
# `PBase.Arena.Address` — two ids never name one object

`add_block` allocates the block before it looks for an entry, and deletes it if it finds none.  So
every block is in the hands of one `acquire` or was returned by one (`Blocks`), and with the table
(`run_inv`) `find` takes two ids that were given out to one object only if they differ in the
version at most.
-/
import PBase.Arena.Unique
import PBase.Lib.Word

namespace PBase.Arena

open PBase.Lib

variable {ι : Type} [DecidableEq ι]

/-- The block that a thread has allocated and not returned. -/
def Pc.ret : Pc → Option BlockPtr
  | .loadSize ret | .loadGroup ret _ | .fetchAdd ret _ _ | .store ret _ _ _ | .fetchSub ret _ _
  | .addGroup ret _ => some ret
  | .idle | .refused => none

omit [DecidableEq ι] in
structure Blocks (es : List Event) (s : State ι) : Prop where
  lt : ∀ t p, (s.pc t).ret = some p → p < s.g.newBlock
  apart : ∀ t u p, (s.pc t).ret = some p → (s.pc u).ret = some p → t = u
  returned : ∀ r ∈ returns es, r.block < s.g.newBlock
  given : ∀ t, ∀ r ∈ returns es, (s.pc t).ret ≠ some r.block
  nodup : ((returns es).map Ret.block).Nodup

theorem addGroup_newBlock (g : GlobalGroup) (n : Nat) : (g.addGroup n).2.newBlock = g.newBlock := by
  unfold GlobalGroup.addGroup
  split
  · rfl
  · split <;> rfl

namespace Blocks
variable {es : List Event} {s : State ι} {t : ι} {g : GlobalGroup} {p : Pc} {e : Event}

/-- A step in which the thread keeps what it has, or deletes it. -/
theorem keep (h : Blocks es s) (he : returns [e] = []) (hnew : g.newBlock = s.g.newBlock)
    (hp : p.ret = (s.pc t).ret ∨ p.ret = none) :
    Blocks (es ++ [e]) ⟨g, Function.update s.pc t p⟩ := by
  have hsub : ∀ u x, (Function.update s.pc t p u).ret = some x → (s.pc u).ret = some x := by
    intro u x hx
    rcases eq_or_ne u t with rfl | hu
    · rw [Function.update_self] at hx
      rcases hp with hp | hp
      · rw [← hp, hx]
      · cases hp.symm.trans hx
    · rwa [Function.update_of_ne hu] at hx
  have hret : returns (es ++ [e]) = returns es := by rw [returns_append, he, List.append_nil]
  refine ⟨fun u x hx => hnew ▸ h.lt u x (hsub u x hx),
      fun u v x hx hy => h.apart u v x (hsub u x hx) (hsub v x hy),
    ?_, ?_, ?_⟩ <;> rw [hret]
  · exact hnew ▸ h.returned
  · exact fun u r hr hx => h.given u r hr (hsub u _ hx)
  · exact h.nodup

/-- `ret = new ObjectBlock` -/
theorem call (h : Blocks es s) (t : ι) : Blocks (es ++ [.tau])
    ⟨{ s.g with newBlock := s.g.newBlock + 1 },
      Function.update s.pc t (.loadSize s.g.newBlock)⟩ := by
  have hcases : ∀ u x, (Function.update s.pc t (.loadSize s.g.newBlock) u).ret = some x →
      (u = t ∧ x = s.g.newBlock) ∨ (s.pc u).ret = some x := by
    intro u x hx
    rcases eq_or_ne u t with rfl | hu
    · rw [Function.update_self] at hx
      exact .inl ⟨rfl, (Option.some.inj hx).symm⟩
    · rw [Function.update_of_ne hu] at hx
      exact .inr hx
  have hret : returns (es ++ [.tau]) = returns es := (returns_append _ _).trans (List.append_nil _)
  refine ⟨fun u x hx => ?_, fun u v x hx hy => ?_, ?_, ?_, ?_⟩
  · show x < s.g.newBlock + 1
    rcases hcases u x hx with ⟨-, rfl⟩ | hx
    · exact Nat.lt_succ_self _
    · exact Nat.lt_succ_of_lt (h.lt u x hx)
  · rcases hcases u x hx with ⟨hu, hnew⟩ | hold <;> rcases hcases v x hy with ⟨hv, hnew'⟩ | hold'
    · exact hu.trans hv.symm
    · exact absurd (hnew ▸ h.lt v x hold') (Nat.lt_irrefl _)
    · exact absurd (hnew' ▸ h.lt u x hold) (Nat.lt_irrefl _)
    · exact h.apart u v x hold hold'
  · rw [hret]
    exact fun r hr => Nat.lt_succ_of_lt (h.returned r hr)
  · rw [hret]
    intro u r hr hx
    rcases hcases u _ hx with ⟨-, hr'⟩ | hx
    · exact absurd (hr' ▸ h.returned r hr) (Nat.lt_irrefl _)
    · exact h.given u r hr hx
  · rw [hret]
    exact h.nodup

/-- The thread returns what it has. -/
theorem ret (h : Blocks es s) {r : Ret} (ht : (s.pc t).ret = some r.block)
    (hnew : g.newBlock = s.g.newBlock) :
    Blocks (es ++ [.acquired r]) ⟨g, Function.update s.pc t .idle⟩ := by
  have hsub : ∀ u x, (Function.update s.pc t .idle u).ret = some x → u ≠ t ∧
      (s.pc u).ret = some x := by
    intro u x hx
    rcases eq_or_ne u t with rfl | hu
    · rw [Function.update_self] at hx
      cases hx
    · rw [Function.update_of_ne hu] at hx
      exact ⟨hu, hx⟩
  have hmem : ∀ {r'}, r' ∈ returns (es ++ [.acquired r]) → r' ∈ returns es ∨ r' = r := by
    intro r' hr'
    rw [returns_append] at hr'
    exact (List.mem_append.mp hr').imp_right List.mem_singleton.mp
  refine ⟨fun u x hx => hnew ▸ h.lt u x (hsub u x hx).2,
    fun u v x hx hy => h.apart u v x (hsub u x hx).2 (hsub v x hy).2, fun r' hr' =>
    ?_, fun u r' hr' hx => ?_, ?_⟩
  · show r'.block < g.newBlock
    rw [hnew]
    rcases hmem hr' with hr' | rfl
    · exact h.returned r' hr'
    · exact h.lt t _ ht
  · obtain ⟨hu, hx⟩ := hsub u _ hx
    rcases hmem hr' with hr' | rfl
    · exact h.given u r' hr' hx
    · exact hu (h.apart u t _ hx ht)
  · rw [returns_append, List.map_append]
    refine List.Nodup.append h.nodup (List.nodup_singleton _) fun x hx hx' => ?_
    obtain ⟨r', hr', rfl⟩ := List.mem_map.mp hx
    exact h.given t r' hr' (ht.trans (congrArg some (List.mem_singleton.mp hx').symm))

theorem step {s' : State ι} (h : Blocks es s) (hs : Step s e s') : Blocks (es ++ [e]) s' := by
  cases hs with
  | call t ht => exact h.call t
  | loadSize t ht | loadGroup t ht _ | fetchAdd t ht _ | overshoot t ht _ | fetchSub t ht =>
      exact h.keep rfl rfl (.inl (by rw [ht]; rfl))
  | addGroup t ht _ => exact h.keep rfl (addGroup_newBlock _ _) (.inl (by rw [ht]; rfl))
  | refuse t ht _ => exact h.keep rfl rfl (.inr rfl)
  | store t ht => exact h.ret (by rw [ht]; rfl) rfl

end Blocks

theorem run_blocks {es : List Event} {s : State ι} (h : (arena ι).Run es s) : Blocks es s := by
  induction h with
  | start h₀ =>
      subst h₀
      exact ⟨(fun _ _ hp => nomatch hp), (fun _ _ _ hp => nomatch hp), (fun _ hr => nomatch hr),
        (fun _ _ hr => nomatch hr), List.nodup_nil⟩
  | next _ hs ih => exact ih.step hs

/-! ## Ids and objects -/

section Objects
variable [Fintype ι] {es : List Event} {s : State ι} {r r' : Ret} {k k' : Nat}

omit [DecidableEq ι] [Fintype ι] in
/-- `find` reads the low half of an id. -/
theorem GlobalGroup.find_low (g : GlobalGroup) (id : Nat) : g.find id = g.find (low id) := by
  have hmask : ∀ w, w &&& 0xFFFFFFFF = low w := fun w => Nat.and_two_pow_sub_one_eq_mod w 32
  have hlow : low (low id) = low id := Nat.mod_mod _ _
  simp only [GlobalGroup.find, hmask, hlow]

/-- `find` takes the ids of a block to its items. -/
theorem find_returned (h : (arena ι).Run es s) (hr : r ∈ returns es) (hk : k < N) :
    s.g.find (r.base + k) = some (r.block, k) := by
  obtain ⟨hinv, hwritten, -⟩ := run_inv h
  obtain ⟨hgroup, hentry, hbase, hblock⟩ := hwritten r hr
  have hfind :=
      GlobalGroup.find_baseId s.g 0 (Nat.lt_of_lt_of_le hgroup hinv.table.size_le) hentry hk
  rw [Nat.zero_shiftLeft, Nat.zero_or, ← hbase, hinv.table.list, if_pos hgroup] at hfind
  simpa [hblock] using hfind

/-- The ids of a block are above 0 and below 2^32. -/
theorem base_bounds (h : (arena ι).Run es s) (hr : r ∈ returns es) :
    0 < r.base ∧ r.base + N ≤ 2 ^ 32 := by
  obtain ⟨hinv, hwritten, -⟩ := run_inv h
  obtain ⟨hgroup, hentry, hbase, -⟩ := hwritten r hr
  have hng := Nat.lt_of_lt_of_le hgroup hinv.table.size_le
  rw [hbase, baseId_eq, N_eq]
  rw [NG_eq] at hng
  rw [N_eq] at hentry
  omega

/-- An object has one id. -/
theorem id_unique (h : (arena ι).Run es s) (hr : r ∈ returns es) (hr' : r' ∈ returns es)
    (hk : k < N) (hk' : k' < N) (heq : s.g.find (r.base + k) = s.g.find (r'.base + k')) :
    r.base + k = r'.base + k' := by
  rw [find_returned h hr hk, find_returned h hr' hk'] at heq
  obtain ⟨hblock, hitem⟩ := Prod.ext_iff.mp (Option.some.inj heq)
  have hsame : r = r' := List.inj_on_of_nodup_map (run_blocks h).nodup hr hr' hblock
  rw [hsame, show k = k' from hitem]

end Objects

end PBase.Arena
