/-
# `PBase.Buffer.Concat` — buffers as lists of bytes

Without `popn`, every ring begins at 0, and no ring is empty that something is appended to: what
`append` does to a family of buffers is what `++` does to a family of lists (`contents`).  The
buffers share blocks, and a ref that is extended in one of them is not extended in the others.

The storage of the rings has to be inside their blocks; so no ring has 2 ^ 28 refs, and the loops
that count refs in an `int` see all of them.
-/
import PBase.Buffer.Family

namespace PBase.Buffer

open PBase.Lib

namespace Family

variable {ι : Type} [DecidableEq ι]

/-! ## Lists -/

/-- The buffer that is appended to. -/
def Call.target : Call ι → Option ι
  | append i _ => some i
  | appendCopy i _ => some i
  | appendMove i _ => some i
  | _ => none

def Call.movedFrom : Call ι → Option ι
  | appendMove _ j => some j
  | _ => none

/-- Everything is appended, and nothing to a buffer that was moved from. -/
def Concatenating (es : List (Call ι)) : Prop :=
  (∀ e ∈ es, e.target.isSome) ∧
    es.Pairwise fun e e' => ∀ j, e.movedFrom = some j → e'.target ≠ some j

/-- What a call does to lists of bytes. -/
def Call.apply (l : ι → List UInt8) : Call ι → ι → List UInt8
  | append i buf => Function.update l i (l i ++ buf)
  | appendCopy i j => Function.update l i (l i ++ l j)
  | appendMove i j => Function.update (Function.update l i (l i ++ l j)) j []
  | _ => l

/-- The buffer holds the bytes `bs`, and nothing was ever taken from it. -/
structure Full (w : World) (z : ZBuffer) (bs : List UInt8) : Prop where
  ready : Ready w z
  slim : z.Slim
  begin : z.begin = 0
  content : content w z.list = bs

section
variable {w w' : World} {L L' : List Nat} {H D' : Multiset Nat} {S : Nat → Prop} {n : Nat}
  {z z' rh : ZBuffer} {bs bs' : List UInt8} {ok : Prop}

theorem Full.empty : Full w .empty [] := ⟨.empty, trivial, rfl, rfl⟩

/-- A buffer that is left alone. -/
theorem Full.evolves (h : Full w z bs) (hs : w.AllSound) (hev : Evolves w L w' L' S)
    (hS : ∀ q ∈ blocks z.list, S q) : Full w' z bs := by
  obtain ⟨hready, hsame⟩ := h.ready.evolves hs hev hS
  exact ⟨hready, h.slim, h.begin, hsame.trans h.content⟩

/-- A buffer that something is added to. -/
theorem Full.grown (h : Full w z bs) (hc : w'.Only Note.inside) (hok : ok)
    (hgrown : z.Grown w L H (blocks z.list) n bs' ok S z' w' L' D') :
    Holds w' L' (z'.held + H) ∧ Full w' z' (bs ++ bs') ∧ (z.Sealed → z'.Sealed) := by
  obtain ⟨holds, _, hrest⟩ := h.ready.grown hgrown (.inl h.begin) (.inr ⟨h.slim, hc⟩)
  obtain ⟨hready, hcontent, hseal⟩ := hrest hok
  rw [h.content] at hcontent
  exact ⟨holds, ⟨hready, hgrown.slim h.slim hc, hgrown.begin.trans h.begin, hcontent⟩, hseal⟩

/-- A buffer whose refs were moved. -/
theorem Full.emptied (h : Full w rh bs) (hempty : Emptied rh z') : Full w' z' [] := by
  obtain ⟨hready, hcontent⟩ := hempty.ready (w := w') h.ready.wide
  exact ⟨hready, hempty.slim h.slim, hempty.begin, hcontent⟩

/-- `append(const ZBuffer&)` and `append(ZBuffer&&)` -/
theorem Full.appendCopy (h : Full w z bs) (hrh : Full w rh bs') (hmem : ∀ q ∈ blocks rh.list, q ∈ H)
    (holds : Holds w L (z.held + H)) :
    Returns (z.appendCopy rh) w fun r w' => GrowsAll w L H (blocks z.list) z rh.list r.1 w' :=
  appendCopy_held hrh.ready.shape hrh.slim hmem holds h.ready.wide

theorem Full.appendMove (h : Full w z bs) (hrh : Full w rh bs')
    (holds : Holds w L (z.held + (rh.held + H))) :
    Returns (z.appendMove rh) w fun r w' =>
      GrowsAll w L (rh.base + H) (blocks z.list) z rh.list r.1 w' ∧ Emptied rh r.2.1 :=
  appendMove_held hrh.ready.shape hrh.slim holds h.ready.wide

/-- The refs of another buffer may be added. -/
theorem Full.addable (h : Full w rh bs) (hz : z.Sealed) : Addable w z rh.list :=
  ⟨hz, h.ready.valid, h.ready.pos⟩

/-- One member of each family changes. -/
theorem full_update {b : ι → ZBuffer} {l : ι → List UInt8} {i : ι} (hz : Full w z bs)
    (hothers : ∀ k ≠ i, Full w (b k) (l k)) (k : ι) :
    Full w (Function.update b i z k) (Function.update l i bs k) := by
  rcases eq_or_ne k i with rfl | hk
  · rwa [Function.update_self, Function.update_self]
  · rw [Function.update_of_ne hk, Function.update_of_ne hk]
    exact hothers k hk

theorem sealed_update {b : ι → ZBuffer} {i k : ι} (hz : (b i).Sealed → z.Sealed)
    (hk : (b k).Sealed) :
    (Function.update b i z k).Sealed := by
  rcases eq_or_ne k i with rfl | hne
  · rw [Function.update_self]
    exact hz hk
  · rwa [Function.update_of_ne hne]

end

variable [Fintype ι]

/-- The buffers hold the lists. -/
structure Lists (s : State ι) (l : ι → List UInt8) : Prop where
  holds : ∃ L, Holds s.world L s.held
  full : ∀ i, Full s.world (s.buffer i) (l i)

namespace Lists

variable {w : World} {L : List Nat} {s t : State ι} {l : ι → List UInt8} {i j k : ι} {e : Call ι}

omit [DecidableEq ι] in
theorem fresh {env : Env} (h : fresh env s) : Lists s fun _ => [] :=
  ⟨(Inv.fresh h).holds, fun i => h.2.1 i ▸ .empty⟩

/-- A call is the same on the buffers and on the lists, if the buffer that is appended to is sealed;
and that stays so, unless it is moved from. -/
theorem step (h : Lists s l) (hs : Step s e t) (hc : t.world.Only Note.inside)
    (htarget : e.target.isSome) (hsealed : ∀ i, e.target = some i → (s.buffer i).Sealed) :
    Lists t (e.apply l) ∧ ∀ k, e.movedFrom ≠ some k → (s.buffer k).Sealed →
    (t.buffer k).Sealed := by
  obtain ⟨⟨L, holds⟩, hfull⟩ := h
  cases hs with
  | @append i buf z w hrun =>
      obtain ⟨H, hheld, hheld', hothers⟩ := held_one s i
      rw [hheld] at holds
      obtain ⟨_, hcopies⟩ := copies_of_loop hrun
      obtain ⟨L', D', hgrown⟩ := ((hfull i).ready.append holds hcopies.lt).of_run hrun
      obtain ⟨holds', hz, hseal⟩ := (hfull i).grown hc ((hsealed i rfl).openFor holds buf) hgrown
      refine ⟨⟨⟨L', hheld' w z ▸ holds'⟩, full_update hz fun k hk => ?_⟩,
          fun k _ hk => sealed_update hseal hk⟩
      exact (hfull k).evolves holds.sound hgrown.evolves fun q hq =>
        Multiset.mem_add.mpr (.inr (hothers k hk q hq))
  | @appendCopy i j r w hij hrun =>
      obtain ⟨H, hheld, hheld', hothers⟩ := held_one s i
      rw [hheld] at holds
      obtain ⟨L', D', hgrown⟩ :=
          ((hfull i).appendCopy (hfull j) (hothers j hij.symm) holds).of_run hrun
      obtain ⟨holds', hz, hseal⟩ := (hfull i).grown hc ((hfull j).addable (hsealed i rfl)) hgrown
      rw [(hfull j).content] at hz
      refine ⟨⟨⟨L', hheld' w r.1 ▸ holds'⟩, full_update hz fun k hk => ?_⟩,
          fun k _ hk => sealed_update hseal hk⟩
      exact (hfull k).evolves holds.sound hgrown.evolves fun q hq =>
        Multiset.mem_add.mpr (.inr (hothers k hk q hq))
  | @appendMove i j r w hij hrun =>
      obtain ⟨H, hheld, hheld', hothers⟩ := held_two s hij
      rw [hheld] at holds
      obtain ⟨⟨L', D', hgrown⟩, hempty⟩ := ((hfull i).appendMove (hfull j) holds).of_run hrun
      obtain ⟨holds', hz, hseal⟩ := (hfull i).grown hc ((hfull j).addable (hsealed i rfl)) hgrown
      rw [(hfull j).content] at hz
      rw [← hempty.held] at holds'
      refine ⟨⟨⟨L', hheld' w r.1 r.2.1 ▸ holds'⟩,
          full_update ((hfull j).emptied hempty) fun k hkj => ?_⟩,
        fun k hmoved hk => ?_⟩
      · rcases eq_or_ne k i with rfl | hki
        · rwa [Function.update_self, Function.update_self]
        · rw [Function.update_of_ne hki, Function.update_of_ne hki]
          refine (hfull k).evolves holds.sound hgrown.evolves fun q hq => ?_
          exact Multiset.mem_add.mpr (.inr (Multiset.mem_add.mpr (.inr (hothers k hki hkj q hq))))
      · have hkj : k ≠ j := fun heq => hmoved (congrArg some heq.symm)
        show (Function.update (Function.update s.buffer i r.1) j r.2.1 k).Sealed
        rw [Function.update_of_ne hkj]
        exact sealed_update hseal hk
  | popn hrun => cases htarget
  | dump hrun => cases htarget
  | release hmem hrun => cases htarget
  | destroy hrun => cases htarget

end Lists

section Concatenation
variable {env : Env} {s : State ι} {es : List (Call ι)} {e : Call ι}

omit [Fintype ι] [DecidableEq ι] in
theorem Concatenating.init (h : Concatenating (es ++ [e])) : Concatenating es ∧ e.target.isSome ∧
    ∀ i, e.target = some i → ∀ e₀ ∈ es, e₀.movedFrom ≠ some i := by
  obtain ⟨hall, hpair⟩ := h
  obtain ⟨hpair, _, hlast⟩ := List.pairwise_append.mp hpair
  refine ⟨⟨fun e₀ he₀ => hall e₀ (List.mem_append_left _ he₀), hpair⟩,
    hall e (List.mem_append_right es (List.mem_singleton_self e)), fun i hi e₀ he₀ hmoved => ?_⟩
  exact hlast e₀ he₀ e (List.mem_singleton_self e) i hmoved hi

/-- The call may be made: not too many bytes, and two buffers. -/
def Call.Proper : Call ι → Prop
  | append _ buf => buf.length < 2 ^ 32
  | appendCopy i j => i ≠ j
  | appendMove i j => i ≠ j
  | _ => False

theorem Lists.returns {l : ι → List UInt8} (h : Lists s l) (he : e.Proper) : ∃ t, Step s e t := by
  obtain ⟨⟨L, holds⟩, hfull⟩ := h
  cases e with
  | append i buf =>
      obtain ⟨H, hheld, _⟩ := held_one s i
      rw [hheld] at holds
      obtain ⟨z, w, hrun, _⟩ := (hfull i).ready.append holds he
      exact ⟨_, .append hrun⟩
  | appendCopy i j =>
      obtain ⟨H, hheld, _, hothers⟩ := held_one s i
      have hij : i ≠ j := he
      rw [hheld] at holds
      obtain ⟨r, w, hrun, _⟩ := (hfull i).appendCopy (hfull j) (hothers j hij.symm) holds
      exact ⟨_, .appendCopy he hrun⟩
  | appendMove i j =>
      obtain ⟨H, hheld, _⟩ := held_two s he
      rw [hheld] at holds
      obtain ⟨r, w, hrun, _⟩ := (hfull i).appendMove (hfull j) holds
      exact ⟨_, .appendMove he hrun⟩
  | _ => exact he.elim

end Concatenation

end Family

end PBase.Buffer
