/-
# `PBase.Buffer.Progress` — the loop of `append`

A turn of `while (copied < count)` copies what fits into the head block, but at most
`(uint32_t)(count - copied)` bytes.  A count of 2 ^ 32 or more gets down to a multiple of 2 ^ 32
and stays there: `left` is 0 in every turn from then on.  Below 2 ^ 32 every turn copies something,
since the block `acquire_block` returns is not full (`append_terminates_iff`).
-/
import PBase.Buffer.Append
import PBase.Buffer.Forms

namespace PBase.Buffer

open PBase.Lib

/-- The loop of `append`, with the refs it appends. -/
inductive Copies : World → ZBuffer → List UInt8 → List BlockRef → ZBuffer → World → Prop
  | done {w : World} {z : ZBuffer} : Copies w z [] [] z w
  | turn {w w₁ w₂ w' : World} {z z₁ z' : ZBuffer} {buf : List UInt8} {ref : BlockRef}
      {refs : List BlockRef} : buf ≠ [] → (copyIn buf).run w = some (ref, w₁) →
      (z.appendRef .copy ref).run w₁ = some (z₁, w₂) →
      Copies w₂ z₁ (buf.drop ref.length) refs z' w' → Copies w z buf (ref :: refs) z' w'

/-- `append` ends, every turn of its loop copies something, and it is all copied. -/
def Completes (w : World) (z : ZBuffer) (buf : List UInt8) : Prop :=
  ∃ refs z' w', (z.append buf).run w = some (z', w') ∧ Copies w z buf refs z' w' ∧
    (∀ ref ∈ refs, 0 < ref.length) ∧ lengths refs = buf.length

section
variable {w w' : World} {L : List Nat} {H D : Multiset Nat} {z z' : ZBuffer} {buf : List UInt8}
  {refs : List BlockRef}

/-- A run of the loop goes through its turns. -/
theorem copies_of_loop {fuel : Nat} (h : (loop appendBody fuel (z, buf)).run w = some (z', w')) :
    ∃ refs, Copies w z buf refs z' w' := by
  induction fuel generalizing w z buf with
  | zero => cases h
  | succ fuel ih =>
      obtain ⟨r, w₂, hbody, hrest⟩ := run_bind_some.mp h
      rw [appendBody] at hbody
      split at hbody
      · rename_i hnil
        cases hbody
        cases hrest
        rw [hnil]
        exact ⟨[], .done⟩
      · rename_i hne
        obtain ⟨ref, w₁, hcopy, hbody⟩ := run_bind_some.mp hbody
        obtain ⟨z₁, w₂, hadd, hpure⟩ := run_bind_some.mp hbody
        cases hpure
        obtain ⟨refs, hrefs⟩ := ih hrest
        exact ⟨ref :: refs, .turn hne hcopy hadd hrefs⟩

/-- A turn copies at most `(uint32_t)(count - copied)` bytes. -/
theorem copyIn_le {ref : BlockRef} (h : (copyIn buf).run w = some (ref, w')) :
    ref.length ≤ buf.length % 2 ^ 32 := by
  obtain ⟨p, w₁, _, h⟩ := run_bind_some.mp h
  obtain ⟨b, w₂, _, h⟩ := run_bind_some.mp h
  obtain ⟨_, w₃, _, hpure⟩ := run_bind_some.mp h
  cases hpure
  exact Nat.min_le_left _ _

/-- A loop that ends did not start with 2 ^ 32 bytes or more. -/
theorem Copies.lt (h : Copies w z buf refs z' w') : buf.length < 2 ^ 32 := by
  induction h with
  | done => decide
  | turn _ hcopy _ _ ih =>
      have hle := copyIn_le hcopy
      rw [List.length_drop] at ih
      omega

/-- Every turn copies something. -/
theorem Copies.progress (h : Copies w z buf refs z' w') (hh : Holds w L (z.base + (D + H)))
    (hz : z.Wide) (hlen : buf.length < 2 ^ 32) :
    (∀ ref ∈ refs, 0 < ref.length) ∧ lengths refs = buf.length := by
  induction h generalizing L D with
  | done => exact ⟨fun _ hr => absurd hr List.not_mem_nil, rfl⟩
  | @turn _ _ _ _ _ _ _ _ ref _ hne hcopy hadd _ ih =>
      obtain ⟨L₁, h₁, hmem, _, hle, hlast, _⟩ := (hh.copyIn _).of_run hcopy
      rw [← zero_add (ZBuffer.base _ + _), ← Pass.given] at h₁
      obtain ⟨L₂, D₂, hgrown⟩ := (appendRef_spec (.inr hmem) h₁ hz).of_run hadd
      obtain ⟨hall, hsum⟩ := ih hgrown.holds hgrown.wide (by rw [List.length_drop]; omega)
      have hlength := List.length_pos_iff.mpr hne
      have hpos : 0 < ref.length := by
        have := hlast hlen
        omega
      refine ⟨fun r hr => ?_, ?_⟩
      · rcases List.mem_cons.mp hr with rfl | hr
        · exact hpos
        · exact hall r hr
      · rw [lengths_cons, hsum, List.length_drop]
        omega

/-- **`append` ends if and only if the count is below 2 ^ 32.**  Whatever the cache and the buffer:
then every turn of the loop copies something, and the refs it appends are `count` bytes. -/
theorem append_terminates_iff (h : Holds w L (z.base + H)) (hz : z.Wide) :
    Completes w z buf ↔ buf.length < 2 ^ 32 := by
  constructor
  · rintro ⟨refs, z', w', _, hcopies, _⟩
    exact hcopies.lt
  · intro hlen
    have h₀ : Holds w L (z.base + (0 + H)) := by rwa [zero_add]
    obtain ⟨z', w', hrun, _⟩ := append_spec h₀ hz hlen
    obtain ⟨refs, hcopies⟩ := copies_of_loop hrun
    exact ⟨refs, z', w', hrun, hcopies, hcopies.progress h₀ hz hlen⟩

end

theorem initial_holds (env : Env) : Holds (.initial env) [] 0 :=
  ⟨⟨0, .initial env, fun _ => rfl⟩, fun p b hb => by cases hb⟩

/-- More than a block holds, into a ring. -/
theorem append_terminates_ring :
    Completes ringBytes (.array 5 wrapped ⟨16, 544, 1⟩) (List.replicate 9000 7) := by
  have hlen : (List.replicate 9000 (7 : UInt8)).length < 2 ^ 32 := by
    rw [List.length_replicate]
    decide
  exact (append_terminates_iff (z := .array 5 wrapped ⟨16, 544, 1⟩) (H := {1, 1, 1, 2, 2})
    (storing_holds (by decide) (by decide)) (show 32 ∣ 31 + 1 by decide)).mpr hlen

/-- 2 ^ 32 bytes are never copied. -/
theorem append_stalls : ¬ ∀ (w : World) (L : List Nat) (H : Multiset Nat) (z : ZBuffer)
    (buf : List UInt8), Holds w L (z.base + H) → z.Wide → buf.length < 2 ^ 64 →
    Completes w z buf := by
  intro hall
  have hlength : (List.replicate (2 ^ 32) (0 : UInt8)).length = 2 ^ 32 := List.length_replicate
  obtain ⟨refs, z', w', _, hcopies, _⟩ := hall (.initial .plain) [] 0 .empty
    (List.replicate (2 ^ 32) 0) (initial_holds .plain) trivial (by rw [hlength]; decide)
  have hlt := hcopies.lt
  rw [hlength] at hlt
  exact Nat.lt_irrefl _ hlt

end PBase.Buffer
