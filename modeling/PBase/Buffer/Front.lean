/-
# `PBase.Buffer.Front` — what is taken from the front

`popn` returns the first bytes of a buffer and leaves the others; the refs that are used up are
released, one after the other, and nothing else is done to any block (`popn_releases`).
`copy_front` returns the same bytes and changes nothing.
-/
import PBase.Buffer.Forms

namespace PBase.Buffer

open PBase.Lib

/-- `release()` of one ref after the other. -/
def releaseAll : List BlockRef → Program Unit
  | [] => pure ()
  | ref :: l => do
      ref.release
      releaseAll l

/-- The first ref is not empty. -/
def ZBuffer.Leads (z : ZBuffer) : Prop := ∀ ref ∈ z.list.head?, 0 < ref.length

section
variable {w w' : World} {first second : BlockRef} {count : Nat}

theorem read_run {ref : BlockRef} {n : Nat} {r : List UInt8}
    (h : (ref.read n).run w = some (r, w')) :
    w' = w := by
  rw [BlockRef.read] at h
  split at h
  · cases h
    rfl
  · obtain ⟨b, w₁, hload, hpure⟩ := run_bind_some.mp h
    cases hpure
    obtain ⟨w₀, w₂, hget, hmatch⟩ := run_bind_some.mp hload
    cases hget
    split at hmatch
    · cases hmatch
      rfl
    · cases hmatch

theorem releaseAll_cons {ref : BlockRef} {l : List BlockRef} {w₁ : World}
    (h : ref.release.run w = some (⟨⟩, w₁)) (hl : (releaseAll l).run w₁ = some (⟨⟩, w')) :
    (releaseAll (ref :: l)).run w = some (⟨⟩, w') := run_bind_some.mpr ⟨⟨⟩, w₁, h, hl⟩

/-- The loop of `array_popn` releases the refs it leaves behind. -/
theorem arrayPopnFrom_releases {a : BlockRefArray} {i n : Nat}
    {r : List UInt8 × BlockRefArray × Nat}
    (hring : a.Ring (i + n)) (h : (arrayPopnFrom a i count n).run w = some (r, w')) :
    i ≤ r.2.2 ∧ r.2.1.capMask = a.capMask ∧
      blocks (r.2.1.list r.2.2 (i + n - r.2.2)) = blocks ((a.list i n).drop (r.2.2 - i)) ∧
      (releaseAll ((a.list i n).take (r.2.2 - i))).run w = some (⟨⟩, w') := by
  induction n generalizing a i count w r with
  | zero =>
      cases h
      refine ⟨Nat.le_refl i, rfl, by simp, ?_⟩
      rw [Nat.sub_self, List.take_zero]
      rfl
  | succ n ih =>
      rw [arrayPopnFrom] at h
      split at h
      · obtain ⟨bytes, w₁, hread, hpure⟩ := run_bind_some.mp h
        cases hpure
        cases read_run hread
        have hfits := hring.fits
        refine ⟨Nat.le_refl i, rfl, ?_, ?_⟩
        · simp only [Nat.add_sub_cancel_left, Nat.sub_self, List.drop_zero]
          rw [BlockRefArray.list_succ, BlockRefArray.list_succ, hring.list_set_before,
            hring.refAt_set (by omega) (by omega), if_pos rfl]
          rfl
        · rw [Nat.sub_self, List.take_zero]
          rfl
      · obtain ⟨bytes, w₁, hread, h⟩ := run_bind_some.mp h
        cases read_run hread
        obtain ⟨_, w₂, hrelease, h⟩ := run_bind_some.mp h
        obtain ⟨s, w₃, hloop, hpure⟩ := run_bind_some.mp h
        cases hpure
        have hring' : (a.setRefAt i .null).Ring (i + 1 + n) := by
          rw [Nat.add_right_comm, Nat.add_assoc]
          exact hring.set
        have hlist : (a.setRefAt i .null).list (i + 1) n = _ := hring.list_set_before
        obtain ⟨hle, hcap, hkept, hrest⟩ := ih hring' hloop
        rw [hlist] at hkept hrest
        have hsub : s.2.2 - i = s.2.2 - (i + 1) + 1 := by omega
        have hend : i + (n + 1) - s.2.2 = i + 1 + n - s.2.2 := by omega
        refine ⟨Nat.le_of_succ_le hle, hcap, ?_, ?_⟩
        · rw [hend, hkept, hsub, BlockRefArray.list_succ, List.drop_succ_cons]
        · rw [hsub, BlockRefArray.list_succ, List.take_succ_cons]
          exact releaseAll_cons hrelease hrest

/-- `simple_popn` releases the refs that are used up. -/
theorem simplePopn_releases {r : List UInt8 × ZBuffer} (hz : (ZBuffer.two first second).Shape)
    (h : (simplePopn first second count).run w = some (r, w')) :
    ∃ removed kept, (ZBuffer.two first second).list = removed ++ kept ∧
      blocks r.2.list = blocks kept ∧ (releaseAll removed).run w = some (⟨⟩, w') := by
  rw [simplePopn] at h
  split at h
  · cases h
    exact ⟨[], _, rfl, rfl, rfl⟩
  have hne : first.block ≠ 0 := fun h0 => absurd (hz.1 h0).1 (by assumption)
  rw [ZBuffer.list_cons first second hne]
  split at h
  · obtain ⟨bytes, w₁, hread, hpure⟩ := run_bind_some.mp h
    cases hpure
    cases read_run hread
    exact ⟨[], _, rfl, by rw [ZBuffer.list_cons (first.drop count) second hne]; rfl, rfl⟩
  obtain ⟨bytes, w₁, hread, h⟩ := run_bind_some.mp h
  cases read_run hread
  obtain ⟨_, w₂, hrelease, h⟩ := run_bind_some.mp h
  split at h
  · -- the first ref was the only one
    rename_i h0
    cases h
    refine ⟨[first], [], ?_, ?_, releaseAll_cons hrelease rfl⟩
    · simp [h0]
    · rw [ZBuffer.list_none rfl h0]
  rename_i hne'
  have hrest : [second].filter (·.block ≠ 0) = [second] := by simp [hne']
  rw [hrest]
  split at h
  · -- and the second ref is used up too
    obtain ⟨rest, w₃, hread', h⟩ := run_bind_some.mp h
    cases read_run hread'
    obtain ⟨_, w₄, hrelease', hpure⟩ := run_bind_some.mp h
    cases hpure
    refine ⟨[first, second], [], rfl, ?_, releaseAll_cons hrelease (releaseAll_cons hrelease' rfl)⟩
    rw [ZBuffer.list_none rfl rfl]
  · obtain ⟨rest, w₃, hread', hpure⟩ := run_bind_some.mp h
    cases hpure
    cases read_run hread'
    refine ⟨[first], [second], rfl, ?_, releaseAll_cons hrelease rfl⟩
    have hone : (ZBuffer.two (second.drop (count - first.length)) .null).list = [second.drop _] :=
      ZBuffer.list_first hne' rfl
    show blocks (ZBuffer.two (second.drop _) .null).list = _
    rw [hone]
    rfl

/-- `popn` releases the refs that are used up, and does nothing else to the blocks. -/
theorem popn_releases {z : ZBuffer} {r : List UInt8 × ZBuffer} (hz : z.Shape)
    (hrun : (z.popn count).run w = some (r, w')) : ∃ removed kept, z.list = removed ++ kept ∧
      blocks r.2.list = blocks kept ∧ (releaseAll removed).run w = some (⟨⟩, w') := by
  cases z with
  | two first second => exact simplePopn_releases hz hrun
  | array refsNum a firstRef =>
      obtain ⟨⟨out, a', i⟩, w₁, hloop, hpure⟩ := run_bind_some.mp hrun
      cases hpure
      obtain ⟨hring, _⟩ := hz
      have hring₀ : a.Ring (0 + refsNum) := by rwa [Nat.zero_add]
      obtain ⟨_, hcap, hkept, hreleased⟩ := arrayPopnFrom_releases hring₀ hloop
      replace hcap : a'.capMask = a.capMask := hcap
      have hring' : a'.Ring (refsNum - i) :=
        ⟨hcap ▸ hring.pow, (Nat.sub_le _ _).trans (hcap ▸ hring.fits)⟩
      refine ⟨(a.list 0 refsNum).take i, (a.list 0 refsNum).drop i,
          (List.take_append_drop i _).symm,
        ?_, hreleased⟩
      show blocks (BlockRefArray.list _ 0 (refsNum - i)) = _
      rw [BlockRefArray.list_advance hring']
      simpa only [Nat.zero_add, Nat.sub_zero] using hkept

/-! ## The front of a buffer -/

theorem leads_popRefs {l : List BlockRef} (h : AllValid w l) (hs : w.AllSound) (count : Nat) :
    ∀ ref ∈ (popRefs l count).head?, 0 < ref.length := by
  induction l generalizing count with
  | nil => simp [popRefs]
  | cons r l ih =>
      intro ref href
      rw [popRefs] at href
      split at href
      · rename_i hlt
        cases href
        have hlen := ((h r List.mem_cons_self).drop hs (Nat.le_of_lt hlt)).2.2
        omega
      · exact ih (fun r hr => h r (List.mem_cons_of_mem _ hr)) _ ref href

/-- **What is taken from the front.**  From a well-formed buffer, `popn` of less than 2 ^ 63 bytes
returns as many bytes as there are, the first ones, and leaves the others in a well-formed buffer;
it releases the refs that are used up, one `dec_ref` each, and nothing else.  `copy_front` returns
the same bytes and changes nothing. -/
theorem popn_front {z : ZBuffer} (h : WellFormed w z) (hcount : count < 2 ^ 63) :
    (Returns (z.popn count) w fun r w' =>
      r.1.length = min count z.size ∧ r.1 = (content w z.list).take count ∧
      content w' r.2.list = (content w z.list).drop count ∧
      r.2.size = z.size - min count z.size ∧ WellFormed w' r.2 ∧ r.2.Leads ∧
      ∃ removed kept, z.list = removed ++ kept ∧ blocks r.2.list = blocks kept ∧
        (releaseAll removed).run w = some (⟨⟩, w')) ∧
    Returns (z.copyFront count) w fun r w' =>
      r.length = min count z.size ∧ r = (content w z.list).take count ∧ w' = w := by
  have hp : z.Poppable count := by
    cases z with
    | two first second => exact .inl hcount
    | array refsNum a firstRef => exact trivial
  obtain ⟨⟨r, w', hrun, hlen, hout, hcontent, hformed⟩, hcopy⟩ := h.serves rfl hp
  refine ⟨⟨r, w', hrun, hlen, hout, hcontent, ?_, hformed, ?_, popn_releases h.shape hrun⟩, hcopy⟩
  · rw [hformed.size_eq, hcontent, List.length_drop, h.size_eq]
    omega
  · obtain ⟨L, H, hholds⟩ := h.holds
    obtain ⟨L', hresult⟩ := (popn_spec h.shape hholds).of_run hrun
    obtain ⟨hlist, _⟩ := hresult.rest h.valid h.sized hp
    rw [ZBuffer.Leads, hlist]
    exact leads_popRefs h.valid h.sound count

end

/-- Four bytes are taken from the ring of seven, with the two refs and the empty one before it. -/
theorem popn_front_four :
    Returns ((ZBuffer.array 5 wrapped ⟨16, 544, 1⟩).popn 4) ringBytes fun r w' =>
      r.1 = [1, 2, 3, 4] ∧ content w' r.2.list = [5, 6, 7] ∧ r.2.size = 3 ∧ WellFormed w' r.2 :=
  (popn_front wrapped_wellFormed (show 4 < 2 ^ 63 by decide)).1.mono fun _ _ hr =>
    ⟨hr.2.1, hr.2.2.1, hr.2.2.2.1, hr.2.2.2.2.1⟩

end PBase.Buffer
