/-
# `PBase.Buffer.Destroy` — the end of a thread's cache

`~ThreadLocalBlockCache` takes the first block off the list and drops the cache's reference on
it, until the list is empty.  If that is the last reference, `release_block` is called on the
cache that is being emptied, and as long as `block_number_` is below the limit the block is on
the list again, with a reference again.  So a turn does not always shorten the list; but then it
raises `block_number_`, which nothing in the loop lowers.  What decreases is the length of the
list and what is left of the limit, taken together: `L.length + (32 - block_number_)`.
-/
import PBase.Buffer.Refs

namespace PBase.Buffer

open PBase.Lib

/-- Nobody but the list has a reference. -/
def World.sole (w : World) (p : Nat) : Bool := (w.block p).any fun b => b.refNum = 1

/-- One reference on each block of `L` is dropped.  Only `free_block` lowers `g_block_number`. -/
structure Dropped (w : World) (L : List Nat) (w' : World) : Prop where
  head : w'.head = 0
  freed : ∀ p ∈ L, ∀ b, w.block p = some b → b.refNum = 1 → w'.block p = none
  shared : ∀ p ∈ L, ∀ b, w.block p = some b → b.refNum ≠ 1 →
    w'.block p = some { b with refNum := b.refNum - 1 }
  others : ∀ p, p ∉ L → w'.block p = w.block p
  number : w'.gBlockNumber = w.gBlockNumber - L.countP w.sole

theorem sole_eq {w : World} {p : Nat} {b : Block} (hb : w.block p = some b) :
    w.sole p = decide (b.refNum = 1) := by
  rw [World.sole, hb, Option.any_some]

theorem countP_sole_congr {w w' : World} {L : List Nat} (h : ∀ q ∈ L, w'.block q = w.block q) :
    L.countP w'.sole = L.countP w.sole := by
  refine List.countP_congr fun q hq => ?_
  rw [World.sole, World.sole, h q hq]

namespace Dropped

variable {w w₁ w' : World} {p : Nat} {b : Block} {L : List Nat}

theorem nil (hhead : w.head = 0) : Dropped w [] w := by
  refine ⟨hhead, fun q hq => ?_, fun q hq => ?_, fun q _ => rfl, rfl⟩
  · exact absurd hq List.not_mem_nil
  · exact absurd hq List.not_mem_nil

/-- The first block loses its reference, and is gone if that was the only one. -/
theorem cons {ob : Option Block} (h : Dropped w₁ L w') (hp : p ∉ L) (hb : w.block p = some b)
    (hblock : w₁.block = Function.update w.block p ob) (hfreed : b.refNum = 1 → ob = none)
    (hshared : b.refNum ≠ 1 → ob = some { b with refNum := b.refNum - 1 })
    (hg : w₁.gBlockNumber = w.gBlockNumber - (w.sole p).toNat) : Dropped w (p :: L) w' := by
  have hne : ∀ q ∈ L, w₁.block q = w.block q := fun q hq => by
    rw [hblock, Function.update_of_ne (ne_of_mem_of_not_mem hq hp)]
  have hself : w'.block p = ob := by rw [h.others p hp, hblock, Function.update_self]
  refine ⟨h.head, fun q hq c hc hone => ?_, fun q hq c hc hmany => ?_, fun q hq => ?_, ?_⟩
  · rcases List.mem_cons.mp hq with rfl | hq
    · cases hb.symm.trans hc
      exact hself.trans (hfreed hone)
    · exact h.freed q hq c ((hne q hq).trans hc) hone
  · rcases List.mem_cons.mp hq with rfl | hq
    · cases hb.symm.trans hc
      exact hself.trans (hshared hmany)
    · exact h.shared q hq c ((hne q hq).trans hc) hmany
  · rw [List.mem_cons, not_or] at hq
    rw [h.others q hq.2, hblock, Function.update_of_ne hq.1]
  · rw [h.number, hg, countP_sole_congr hne, List.countP_cons]
    cases w.sole p with
    | true => simp only [if_true, Bool.toNat_true]; omega
    | false => simp

/-- The first block is put on the list again. -/
theorem cons_cached {b' : Block} (h : Dropped w₁ (p :: L) w') (hp : p ∉ L)
    (hb : w.block p = some b) (hblock : w₁.block = Function.update w.block p (some b'))
    (hnum : b.refNum = 1) (hnum' : b'.refNum = 1) (hg : w₁.gBlockNumber = w.gBlockNumber) :
    Dropped w (p :: L) w' := by
  have hself : w₁.block p = some b' := by rw [hblock, Function.update_self]
  have hne : ∀ q, q ≠ p → w₁.block q = w.block q := fun q hq => by
    rw [hblock, Function.update_of_ne hq]
  refine ⟨h.head, fun q hq c hc hone => ?_, fun q hq c hc hmany => ?_, fun q hq => ?_, ?_⟩
  · rcases eq_or_ne q p with rfl | hqp
    · exact h.freed q hq b' hself hnum'
    · exact h.freed q hq c ((hne q hqp).trans hc) hone
  · rcases eq_or_ne q p with rfl | hqp
    · cases hb.symm.trans hc
      exact absurd hnum hmany
    · exact h.shared q hq c ((hne q hqp).trans hc) hmany
  · rw [h.others q hq, hne q fun heq => hq (heq ▸ List.mem_cons_self)]
  · have hrest : L.countP w₁.sole = L.countP w.sole :=
      countP_sole_congr fun q hq => hne q (ne_of_mem_of_not_mem hq hp)
    rw [h.number, hg, List.countP_cons, List.countP_cons, hrest, sole_eq hself, sole_eq hb, hnum,
      hnum']

end Dropped

section Turn
variable {w : World} {p : Nat} {b : Block} {Q : Unit ⊕ Unit → World → Prop}

theorem destroyBody_empty (hhead : w.head = 0) (hQ : Q (.inr ()) w) :
    Returns (destroyBody ()) w Q :=
  .bind (.get (.ite (fun _ => .pure hQ) fun hne => absurd hhead hne))

/-- The head is taken off the list, and then loses its reference. -/
theorem destroyBody_head (hne : w.head ≠ 0) (hb : w.block w.head = some b)
    (hQ : Returns (decRef w.head) { w with head := b.next } fun _ w' => Q (.inl ()) w') :
    Returns (destroyBody ()) w Q := by
  refine .bind (.get (.ite (fun heq => absurd heq hne) fun _ => ?_))
  refine .bind (returns_load hb (.bind (returns_setHead ?_)))
  exact .bind (hQ.mono fun _ w' hw' => .pure hw')

end Turn

/-- The list, and that it has a reference on each of its blocks. -/
structure Cached (w : World) (L : List Nat) : Prop where
  chain : Chain w.next 0 w.head L
  counted : ∀ p ∈ L, ∃ b, w.block p = some b ∧ 1 ≤ b.refNum

namespace Cached

variable {w w₁ : World} {b : Block} {p : Nat} {L : List Nat}

theorem not_mem (h : Cached w (p :: L)) : p ∉ L := (List.nodup_cons.mp h.chain.nodup).1

/-- Off the list, the first block may change or go. -/
theorem tail {ob : Option Block} (h : Cached w (p :: L)) (hb : w.block p = some b)
    (hblock : w₁.block = Function.update w.block p ob) (hhead : w₁.head = b.next) :
    Cached w₁ L := by
  have hne : ∀ q ∈ L, w₁.block q = w.block q := fun q hq => by
    rw [hblock, Function.update_of_ne (ne_of_mem_of_not_mem hq h.not_mem)]
  have hrest := h.chain.of_cons.2
  rw [next_eq hb, ← hhead] at hrest
  constructor
  · refine hrest.frame fun q hq => ?_
    rw [World.next, World.next, hne q hq]
  · intro q hq
    rw [hne q hq]
    exact h.counted q (List.mem_cons_of_mem _ hq)

/-- The first block is put in front of the others again. -/
theorem again {b' : Block} (h : Cached w (p :: L)) (hb : w.block p = some b)
    (hblock : w₁.block = Function.update w.block p (some b')) (hhead : w₁.head = p)
    (hnext : b'.next = b.next) (hnum : 1 ≤ b'.refNum) : Cached w₁ (p :: L) := by
  constructor
  · have hchain := h.chain
    rw [h.chain.of_cons.1, ← hhead, ← next_same hb hblock hnext] at hchain
    exact hhead ▸ hchain
  · intro q hq
    rcases eq_or_ne q p with rfl | hqp
    · exact ⟨b', by rw [hblock, Function.update_self], hnum⟩
    · rw [hblock, Function.update_of_ne hqp]
      exact h.counted q hq

end Cached

/-- Turns left at most. -/
def turns (w : World) (L : List Nat) : Nat := L.length + (kBlockCachedPerThread - w.blockNumber)

/-- A turn brings the end of the loop closer, and what is left to drop is what was to be
dropped before it. -/
theorem destroyBody_spec {w : World} {p : Nat} {R : List Nat} (h : Cached w (p :: R)) :
    Returns (destroyBody ()) w fun r w₁ => r = .inl () ∧ ∃ R', Cached w₁ R' ∧
      turns w₁ R' < turns w (p :: R) ∧ ∀ w', Dropped w₁ R' w' → Dropped w (p :: R) w' := by
  obtain ⟨b, hb, hpos⟩ := h.counted p List.mem_cons_self
  obtain rfl : w.head = p := h.chain.of_cons.1
  have hp := h.not_mem
  have hsole := sole_eq hb
  refine destroyBody_head (h.chain.ne_null _ List.mem_cons_self) hb ?_
  rcases eq_or_lt_of_le hpos with hone | hmany
  · rcases Nat.lt_or_ge w.blockNumber kBlockCachedPerThread with hn | hn
    · -- the list keeps its length, and block_number_ is one higher
      refine decRef_cached hb hone.ge hn ⟨rfl, _, h.again hb rfl rfl rfl hpos, ?_, fun w' hw' => ?_⟩
      · simp only [turns, kBlockCachedPerThread] at hn ⊢
        omega
      · exact hw'.cons_cached hp hb rfl hone.symm hone.symm rfl
    · refine decRef_freed hb hone.ge (Nat.not_lt.mpr hn)
        ⟨rfl, R, h.tail hb rfl rfl, ?_, fun w' hw' => ?_⟩
      · simp only [turns, List.length_cons]
        omega
      · refine hw'.cons hp hb rfl (fun _ => rfl) (absurd hone.symm) ?_
        rw [hsole, ← hone]
        rfl
  · refine decRef_shared hb hmany ⟨rfl, R, h.tail hb rfl rfl, ?_, fun w' hw' => ?_⟩
    · simp only [turns, List.length_cons, World.setBlock]
      omega
    · refine hw'.cons hp hb rfl (fun hone => absurd hone hmany.ne') (fun _ => rfl) ?_
      rw [hsole, decide_eq_false hmany.ne']
      rfl

/-- With a turn for each block of the list, one for each that can be put on it again, and one
to see that it is empty, the destructor returns. -/
theorem destroyCache_drops {w : World} {L : List Nat} {fuel : Nat} (hL : Chain w.next 0 w.head L)
    (hnum : ∀ p ∈ L, ∃ b, w.block p = some b ∧ 1 ≤ b.refNum)
    (hfuel : L.length + kBlockCachedPerThread < fuel) :
    Returns (destroyCache fuel) w fun _ w' => Dropped w L w' := by
  -- what is left to drop, in the world the turns so far have left
  let I : Nat → Unit → World → Prop := fun n _ s =>
    ∃ R, Cached s R ∧ turns s R = n ∧ ∀ w', Dropped s R w' → Dropped w L w'
  refine .loop (I := I) (n := turns w L) (fun n _ s => ?_) ⟨L, ⟨hL, hnum⟩, rfl, fun _ h => h⟩ ?_
  · rintro ⟨R, hR, rfl, hleft⟩
    cases R with
    | nil =>
        have hhead : s.head = 0 := hR.chain.eq_nil_iff.mp rfl
        refine destroyBody_empty hhead ⟨fun _ h => ?_, fun _ _ => hleft s (.nil hhead)⟩
        cases h
    | cons p R =>
        refine (destroyBody_spec hR).mono fun r w₁ hturn => ⟨fun _ _ => ?_, fun _ h => ?_⟩
        · obtain ⟨-, R', hR', hlt, hdrop⟩ := hturn
          exact ⟨_, hlt, R', hR', rfl, fun w' hw' => hleft w' (hdrop w' hw')⟩
        · cases hturn.1.symm.trans h
  · simp only [turns]
    omega

/-- Two blocks, one of them held elsewhere; the counter is not theirs. -/
def worldOfTwo : World :=
  let b : Block := ⟨0, 1, 8, 8168, fun _ => 0, 0, 8192⟩
  { World.initial .plain with
    mallocs := 2, gBlockNumber := 2, head := 1, blockNumber := 31
    block := fun p => if p = 1 then some { b with next := 2 } else if p = 2 then
      some { b with refNum := 3 } else none }

theorem destroyCache_drops_two :
    Returns (destroyCache 35) worldOfTwo fun _ w' => Dropped worldOfTwo [1, 2] w' := by
  refine destroyCache_drops ?_ ?_ (by decide)
  · exact .cons (by decide) (.cons (by decide) .nil)
  · intro p hp
    simp only [List.mem_cons, List.not_mem_nil, or_false] at hp
    rcases hp with rfl | rfl
    · exact ⟨_, rfl, by decide⟩
    · exact ⟨_, rfl, by decide⟩

end PBase.Buffer
