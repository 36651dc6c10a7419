/-
# `PBase.Buffer.Reading` — reading from a file into the blocks of the cache

`read_from_fd` walks the cache list twice.  The first loop offers the space of the blocks to the
kernel, one iovec each, and puts new blocks at the end of the list; the second takes the blocks
again, as long as bytes were read: a block that is full then leaves the list, and its reference
passes to the ref; the last one stays, with a reference more.  A block behind the head may be full
before; it is offered with what space it has, which may be none, and is taken like the others.

What the loops compute is `offers` and `takes`, on the list of blocks; the refs cover the first
bytes of the areas offered (`takes_area`).
-/
import PBase.Buffer.Content
import PBase.Buffer.Lending

namespace PBase.Buffer

open PBase.Lib

/-! ## On the list of blocks -/

/-- `block->offset` -/
def World.offset (w : World) (p : Nat) : Nat := (w.block p).elim 0 Block.offset

/-- `block->left_space()` -/
def World.space (w : World) (p : Nat) : Nat := (w.block p).elim 0 Block.leftSpace

/-- `block->full()` -/
def World.full (w : World) (p : Nat) : Bool := (w.block p).elim false Block.full

/-- The bytes of an iovec, each by its block and its place there. -/
def Iovec.area (v : Iovec) : List (Nat × Nat) := (List.range v.len).map fun i =>
    (v.block, v.offset + i)

def BlockRef.area (ref : BlockRef) : List (Nat × Nat) :=
  (List.range ref.length).map fun i => (ref.block, ref.offset + i)

/-- The iovecs for the blocks, when `space` bytes are offered so far. -/
def offers (w : World) (count : Nat) : Nat → List Nat → List Iovec
  | _, [] => []
  | space, p :: ps =>
      ⟨p, w.offset p, min (w.space p) (count - space)⟩ ::
        offers w count (space + min (w.space p) (count - space)) ps

/-- The refs on `total` bytes read into the blocks. -/
def takes (w : World) : Nat → List Nat → List BlockRef
  | _, [] => []
  | total, p :: ps =>
      ⟨w.offset p, min total (w.space p), p⟩ ::
        (if total ≤ w.space p then [] else takes w (total - w.space p) ps)

/-- The bytes offered. -/
def offered (iov : List Iovec) : Nat := (iov.map Iovec.len).sum

section Lists
variable {w w' : World} {p q count space total : Nat} {ps : List Nat} {v : Iovec} {iov : List Iovec}

@[simp] theorem offered_nil : offered [] = 0 := rfl

@[simp] theorem offered_cons : offered (v :: iov) = v.len + offered iov := by simp [offered]

@[simp] theorem offered_append {iov' : List Iovec} :
    offered (iov ++ iov') = offered iov + offered iov' := by
  simp [offered]

@[simp] theorem length_offers : (offers w count space ps).length = ps.length := by
  induction ps generalizing space with
  | nil => rfl
  | cons p ps ih => simp [offers, ih]

theorem offers_congr (h : ∀ p ∈ ps, w'.offset p = w.offset p ∧ w'.space p = w.space p) :
    offers w' count space ps = offers w count space ps := by
  induction ps generalizing space with
  | nil => rfl
  | cons p ps ih =>
      obtain ⟨hoff, hspace⟩ := h p List.mem_cons_self
      rw [offers, offers, hoff, hspace, ih fun q hq => h q (List.mem_cons_of_mem _ hq)]

theorem takes_congr (h : ∀ p ∈ ps, w'.offset p = w.offset p ∧ w'.space p = w.space p) :
    takes w' total ps = takes w total ps := by
  induction ps generalizing total with
  | nil => rfl
  | cons p ps ih =>
      obtain ⟨hoff, hspace⟩ := h p List.mem_cons_self
      rw [takes, takes, hoff, hspace, ih fun q hq => h q (List.mem_cons_of_mem _ hq)]

/-- One block more is offered. -/
theorem offers_snoc : offers w count space (ps ++ [p]) = offers w count space ps ++
    [⟨p, w.offset p, min (w.space p) (count - (space + offered (offers w count space ps)))⟩] := by
  induction ps generalizing space with
  | nil => rfl
  | cons q ps ih =>
      rw [List.cons_append, offers, ih, offers, offered_cons, List.cons_append, Nat.add_assoc]

/-- No more than `count` bytes are offered. -/
theorem offered_le : offered (offers w count space ps) ≤ count - space := by
  induction ps generalizing space with
  | nil => exact Nat.zero_le _
  | cons p ps ih =>
      have hrest := @ih (space + min (w.space p) (count - space))
      rw [offers, offered_cons]
      simp only
      omega

theorem mem_offers (h : v ∈ offers w count space ps) : v.block ∈ ps ∧ v.offset = w.offset v.block ∧
    v.len ≤ w.space v.block := by
  induction ps generalizing space with
  | nil => cases h
  | cons p ps ih =>
      rcases List.mem_cons.mp h with rfl | h
      · exact ⟨List.mem_cons_self, rfl, Nat.min_le_left _ _⟩
      · obtain ⟨hmem, hrest⟩ := ih h
        exact ⟨List.mem_cons_of_mem _ hmem, hrest⟩

theorem offers_blocks : (offers w count space ps).map Iovec.block = ps := by
  induction ps generalizing space with
  | nil => rfl
  | cons p ps ih => rw [offers, List.map_cons, ih]

theorem length_takes_le : (takes w total ps).length ≤ ps.length := by
  induction ps generalizing total with
  | nil => exact Nat.le_refl _
  | cons p ps ih =>
      rw [takes]
      split
      · simp
      · simpa using ih

/-- The blocks taken are the first of those offered. -/
theorem takes_blocks : (takes w total ps).map BlockRef.block = ps.take
    (takes w total ps).length := by
  induction ps generalizing total with
  | nil => rfl
  | cons p ps ih =>
      rw [takes]
      split
      · rfl
      · rw [List.map_cons, List.length_cons, List.take_succ_cons, ih]

theorem mem_takes {ref : BlockRef} (h : ref ∈ takes w total ps) :
    ref.offset = w.offset ref.block := by
  induction ps generalizing total with
  | nil => cases h
  | cons p ps ih =>
      rw [takes] at h
      rcases List.mem_cons.mp h with rfl | h
      · rfl
      · split at h
        · cases h
        · exact ih h

theorem length_area : v.area.length = v.len := by simp [Iovec.area]

/-- **The refs cover the first bytes of the areas offered**, in order and each byte once. -/
theorem takes_area (h : total ≤ offered (offers w count space ps)) :
    (takes w total ps).flatMap BlockRef.area =
    ((offers w count space ps).flatMap Iovec.area).take total := by
  induction ps generalizing total space with
  | nil =>
      have h0 : total = 0 := Nat.le_zero.mp h
      rw [h0, List.take_zero]
      rfl
  | cons p ps ih =>
      rw [offers, offered_cons] at h
      simp only at h
      have hrest : offered (offers w count (space + min (w.space p) (count - space)) ps) ≤ _ :=
          offered_le
      rw [takes, offers, List.flatMap_cons, List.flatMap_cons]
      split
      · rename_i hlast
        -- no byte is left for the blocks behind
        have hle : total ≤ min (w.space p) (count - space) := by omega
        rw [List.flatMap_nil, List.append_nil,
            List.take_append_of_le_length (by rw [length_area]; exact hle)]
        simp only [BlockRef.area, Iovec.area, ← List.map_take, List.take_range, Nat.min_eq_left hle,
          Nat.min_eq_left hlast]
      · rename_i hmore
        have hlen : min (w.space p) (count - space) = w.space p := by omega
        have hmin : min total (w.space p) = w.space p := by omega
        rw [hlen] at h ⊢
        rw [@ih (space + w.space p) (total - w.space p) (by omega), List.take_append, length_area,
            hmin]
        have hall : List.take total (Iovec.area ⟨p, w.offset p, w.space p⟩)
            = Iovec.area ⟨p, w.offset p, w.space p⟩ :=
          List.take_of_length_le (by rw [length_area]; simp only; omega)
        rw [hall]
        rfl

end Lists

/-! ## Offering -/

/-- The list `L` got the blocks `new` at its end, and nothing else was changed. -/
structure Linked (w : World) (L : List Nat) (w' : World) (new : List Nat) : Prop where
  head : L ≠ [] → w'.head = w.head
  same : ∀ p b, w.block p = some b → ∃ x, w'.block p = some { b with next := x }
  fresh : ∀ p ∈ new, w.block p = none
  fits : ∀ p ∈ new, ∃ b, w'.block p = some b ∧ b.offset ≤ b.capacity
  counted : ∀ c, Counted w L c → Counted w' (L ++ new) c
  evolves : Evolves w L w' (L ++ new) fun _ => True

/-- Where the first loop is: the blocks `used` are offered, and `p` is the first of the others. -/
structure Offering (w : World) (L : List Nat) (H : Multiset Nat) (count p prev : Nat)
    (new used rest : List Nat) (iov : List Iovec) (w₁ : World) : Prop where
  split : L ++ new = used ++ rest
  refs : Refs w₁ (L ++ new) H
  chain : Chain w₁.next 0 p rest
  last : rest = [] → ∃ t, used = t ++ [prev]
  offers : iov = offers w₁ count 0 used
  linked : Linked w L w₁ new

section Offers
variable {w w₁ w₂ : World} {L new new' used rest t : List Nat} {H : Multiset Nat}
  {p prev q count : Nat} {iov : List Iovec} {b : Block}

theorem offset_eq (hb : w.block p = some b) : w.offset p = b.offset := by
  rw [World.offset, hb, Option.elim_some]

theorem space_eq (hb : w.block p = some b) : w.space p = b.leftSpace := by
  rw [World.space, hb, Option.elim_some]

theorem full_eq (hb : w.block p = some b) : w.full p = b.full := by
  rw [World.full, hb, Option.elim_some]

theorem Linked.refl (w : World) (L : List Nat) : Linked w L w [] where
  head _ := rfl
  same p b hb := ⟨b.next, hb⟩
  fresh p hp := absurd hp List.not_mem_nil
  fits p hp := absurd hp List.not_mem_nil
  counted c hc := by rwa [List.append_nil]
  evolves := by
    rw [List.append_nil]
    exact .refl w L _

theorem Linked.trans (h : Linked w L w₁ new) (h' : Linked w₁ (L ++ new) w₂ new') :
    Linked w L w₂ (new ++ new') := by
  refine ⟨fun hne => (h'.head (List.append_ne_nil_of_left_ne_nil hne new)).trans (h.head hne),
      fun p b hb => ?_,
    fun p hp => ?_, fun p hp => ?_, fun c hc => ?_, ?_⟩
  · obtain ⟨x, hb₁⟩ := h.same p b hb
    obtain ⟨y, hb₂⟩ := h'.same p _ hb₁
    exact ⟨y, hb₂⟩
  · rcases List.mem_append.mp hp with hp | hp
    · exact h.fresh p hp
    · cases hb : w.block p with
      | none => rfl
      | some b =>
          obtain ⟨x, hb₁⟩ := h.same p b hb
          cases hb₁.symm.trans (h'.fresh p hp)
  · rcases List.mem_append.mp hp with hp | hp
    · obtain ⟨b, hb, hle⟩ := h.fits p hp
      obtain ⟨x, hb'⟩ := h'.same p b hb
      exact ⟨_, hb', hle⟩
    · exact h'.fits p hp
  · rw [← List.append_assoc]
    exact h'.counted c (h.counted c hc)
  · rw [← List.append_assoc]
    exact h.evolves.trans h'.evolves fun _ _ => ⟨trivial, trivial⟩

/-- The blocks offered before have the place and the space they had. -/
theorem Linked.offers (h : Linked w L w₁ new) (hsome : ∀ p ∈ used, (w.block p).isSome) :
    PBase.Buffer.offers w₁ count 0 used = PBase.Buffer.offers w count 0 used := by
  refine offers_congr fun p hp => ?_
  obtain ⟨b, hb⟩ := Option.isSome_iff_exists.mp (hsome p hp)
  obtain ⟨x, hb₁⟩ := h.same p b hb
  rw [offset_eq hb, offset_eq hb₁, space_eq hb, space_eq hb₁]
  exact ⟨rfl, rfl⟩

/-- At the end of the list a new block is linked to the last one. -/
theorem nextBlock_new (h : Refs w (t ++ [prev]) H) : Returns (nextBlock 0 prev) w fun q w' =>
    Refs w' (t ++ [prev] ++ [q]) H ∧ Linked w (t ++ [prev]) w' [q] := by
  obtain ⟨b, hb⟩ := h.exists_block (.inr (List.mem_append_right t (List.mem_singleton_self prev)))
  obtain ⟨hcountH, hcountL⟩ := h.count_fresh
  have hne : prev ≠ w.mallocs + 1 := fun heq => by
    have hnone := h.fresh_none
    rw [← heq, hb] at hnone
    cases hnone
  have hnot : w.mallocs + 1 ∉ t ++ [prev] := List.count_eq_zero.mp hcountL
  -- the world with the new block, not linked yet
  let w₁ : World :=
      { w.setBlock (w.mallocs + 1) (.create w.env (w.mallocs + 1) (kNormalBlockSize % 2 ^ 32)) with
    mallocs := w.mallocs + 1, gBlockNumber := w.gBlockNumber + 1 }
  have hb₁ : w₁.block prev = some b := (setBlock_of_ne hne).trans hb
  have hnew₁ : w₁.block (w.mallocs + 1) =
      some (.create w.env (w.mallocs + 1) (kNormalBlockSize % 2 ^ 32)) :=
    setBlock_self
  have hcreated : Refs w₁ (t ++ [prev]) ((w.mallocs + 1) ::ₘ H) := by
    refine h.create rfl rfl rfl rfl ?_ ?_ fun q hq => ⟨?_, rfl⟩
    · refine h.chain.frame fun x hx => ?_
      have hx : x ≠ w.mallocs + 1 := fun heq => hnot (heq ▸ hx)
      rw [World.next, World.next, show w₁.block x = w.block x from setBlock_of_ne hx]
    · rw [hcountL, Multiset.count_cons_self, hcountH]
      exact ⟨rfl, Int.one_pos⟩
    · rw [Multiset.count_cons_of_ne hq]
  let w₂ : World := { w₁.setBlock prev { b with next := w.mallocs + 1 } with
    blockNumber := (w.blockNumber + 1) % 2 ^ 32 }
  have hblock₂ : w₂.block = Function.update w₁.block prev (some { b with next := w.mallocs + 1 }) :=
      rfl
  have hnew₂ : w₂.block (w.mallocs + 1) =
      some (.create w.env (w.mallocs + 1) (kNormalBlockSize % 2 ^ 32)) :=
    (setBlock_of_ne hne.symm).trans hnew₁
  refine .ite (fun _ => ?_) fun hne0 => absurd rfl hne0
  refine .bind (returns_createBlock
      (.bind (returns_load hb₁ (.bind (returns_store (.bind (.modify (.pure ?_))))))))
  have hchain : Chain w₂.next 0 w₂.head (t ++ [prev] ++ [w.mallocs + 1]) := by
    refine hcreated.chain.snoc (Nat.succ_ne_zero _) ?_ ?_ fun x hx => ?_
    · rw [next_update hblock₂, Function.update_self]
    · rw [next_eq hnew₂]
      rfl
    · have hnodup := hcreated.chain.nodup
      have hx : x ≠ prev := by
        rintro rfl
        exact (List.disjoint_of_nodup_append hnodup) hx (List.mem_singleton_self _)
      rw [next_update hblock₂, Function.update_of_ne hx]
  refine ⟨hcreated.relist (fun q => ?_) (fun q c c' hc hc' => ?_) rfl rfl hchain fun q => ?_,
      fun _ => rfl,
    fun p c hc => ?_, fun p hp => ?_, fun p hp => ?_, fun c hc => ?_, ?_⟩
  · rcases eq_or_ne q prev with rfl | hq
    · simp [setBlock_self, hb₁]
    · rw [hblock₂, Function.update_of_ne hq]
  · rcases eq_or_ne q prev with rfl | hq
    · rw [hblock₂, Function.update_self] at hc'
      cases hb₁.symm.trans hc
      cases hc'
      rfl
    · rw [hblock₂, Function.update_of_ne hq] at hc'
      cases hc.symm.trans hc'
      rfl
  · rw [List.count_append]
    rcases eq_or_ne q (w.mallocs + 1) with rfl | hq
    · rw [Multiset.count_cons_self, List.count_singleton_self]
      omega
    · rw [Multiset.count_cons_of_ne hq, List.count_singleton, if_neg (by simpa using hq.symm),
        Nat.add_zero]
  · have hp : p ≠ w.mallocs + 1 := fun heq => by
      have hnone := h.fresh_none
      rw [← heq, hc] at hnone
      cases hnone
    have hc₁ : w₁.block p = some c := (setBlock_of_ne hp).trans hc
    rcases eq_or_ne p prev with rfl | hne
    · cases hb.symm.trans hc
      exact ⟨_, Function.update_self ..⟩
    · exact ⟨c.next, (setBlock_of_ne hne).trans hc₁⟩
  · rw [List.mem_singleton.mp hp]
    exact h.fresh_none
  · rw [List.mem_singleton.mp hp]
    exact ⟨_, hnew₂, Nat.zero_le _⟩
  · simp only [Counted, List.length_append, List.length_singleton] at hc ⊢
    show (w.blockNumber + 1) % 2 ^ 32 = _
    omega
  · have hcreate : Evolves w (t ++ [prev]) w₁ (t ++ [prev] ++ [w.mallocs + 1]) fun _ => True :=
      .create h.fresh_none rfl .rfl (fun _ _ hc _ => hc.normal _ _) fun q hq _ hqt hmem =>
        (List.mem_append.mp hmem).elim hqt fun hmem => hq (List.mem_singleton.mp hmem)
    have hlink : Evolves w₁ (t ++ [prev] ++ [w.mallocs + 1]) w₂
        (t ++ [prev] ++ [w.mallocs + 1]) fun _ => True :=
      .relink (r := b.refNum) (x := w.mallocs + 1) hb₁ hblock₂ .rfl fun _ _ hq => hq
    exact hcreate.trans hlink fun _ _ => ⟨trivial, trivial⟩

/-- There is a next block, perhaps a new one. -/
theorem nextBlock_spec (h : Offering w L H count p prev new used rest iov w₁) :
    Returns (nextBlock p prev) w₁ fun q w₂ => ∃ new' rest',
      Offering w L H count q prev new' used (q :: rest') iov w₂ := by
  rcases eq_or_ne p 0 with rfl | hne
  · have hnil : rest = [] := h.chain.of_null
    subst hnil
    obtain ⟨t, rfl⟩ := h.last rfl
    have hsplit := h.split
    rw [List.append_nil] at hsplit
    have hrefs := h.refs
    rw [hsplit] at hrefs
    refine (nextBlock_new hrefs).mono fun q w₂ hq => ?_
    obtain ⟨hrefs', hlinked⟩ := hq
    have hlist : L ++ (new ++ [q]) = t ++ [prev] ++ [q] := by rw [← List.append_assoc, hsplit]
    refine ⟨new ++ [q], [], hlist, hlist ▸ hrefs', hrefs'.chain.drop,
        (fun hq => absurd hq (List.cons_ne_nil q [])),
      ?_, h.linked.trans ?_⟩
    · rw [hlinked.offers fun x hx => hrefs.listed x hx]
      exact h.offers
    · rw [hsplit]
      exact hlinked
  · obtain ⟨rest', rfl, _⟩ := h.chain.of_ne hne
    exact .ite (fun h0 => absurd h0 hne) fun _ => .pure ⟨new, rest', h⟩

/-- The block is offered. -/
theorem Offering.offer (h : Offering w L H count q prev new used (q :: rest) iov w₁)
    (hb : w₁.block q = some b) : Offering w L H count b.next q new (used ++ [q]) rest
      (iov ++ [⟨q, b.offset, min b.leftSpace (count - offered iov)⟩]) w₁ := by
  refine ⟨?_, h.refs, ?_, fun _ => ⟨used, rfl⟩, ?_, h.linked⟩
  · rw [h.split, List.append_assoc, List.singleton_append]
  · obtain ⟨_, hrest⟩ := h.chain.of_cons
    rwa [next_eq hb] at hrest
  · rw [offers_snoc, ← h.offers, offset_eq hb, space_eq hb, Nat.zero_add]

/-- A turn of the first loop. -/
theorem offerBody_spec (h : Offering w L H count p prev new used rest iov w₁) :
    Returns (offerBody count (p, prev, offered iov, iov)) w₁ fun r w₂ => ∃ p' q new' rest' iov',
      Offering w L H count p' q new' (used ++ [q]) rest' iov' w₂ ∧
      (r = .inr iov' ∨ iov'.length < kMaxIov ∧ r = .inl (p', q, offered iov', iov')) := by
  refine .bind ((nextBlock_spec h).mono fun q w₂ hq => ?_)
  obtain ⟨new', rest', hq⟩ := hq
  have hlisted : q ∈ L ++ new' := by
    rw [hq.split]
    exact List.mem_append_right used List.mem_cons_self
  obtain ⟨b, hb⟩ := hq.refs.exists_block (.inr hlisted)
  have hturn := hq.offer hb
  refine .bind (returns_load hb ?_)
  have hsum : offered iov + min b.leftSpace (count - offered iov)
      = offered (iov ++ [⟨q, b.offset, min b.leftSpace (count - offered iov)⟩]) := by
    rw [offered_append, offered_cons, offered_nil, Nat.add_zero]
  refine .ite (fun _ => .pure ?_) fun hmore => .pure ?_
  · exact ⟨_, _, _, _, _, hturn, .inl rfl⟩
  · refine ⟨_, _, _, _, _, hturn, .inr ⟨lt_of_not_ge fun hge => hmore (.inr hge), ?_⟩⟩
    rw [← hsum]

/-- The first loop: it offers the first blocks of the list. -/
theorem offerLoop_spec (h : Refs w L H) (hne : L ≠ []) :
    Returns (loop (offerBody count) (kMaxIov + 1) (w.head, 0, 0, [])) w fun iov w' =>
      ∃ new used rest, L ++ new = used ++ rest ∧ Refs w' (L ++ new) H ∧
        iov = offers w' count 0 used ∧ used.length ≤ kMaxIov ∧ Linked w L w' new := by
  let I : Nat → Nat × Nat × Nat × List Iovec → World → Prop :=
      fun n s w₁ => ∃ p prev new used rest iov,
    s = (p, prev, offered iov, iov) ∧ Offering w L H count p prev new used rest iov w₁ ∧
      n + used.length = kMaxIov ∧ 0 < n
  have hstart : I kMaxIov (w.head, 0, 0, []) w := by
    refine ⟨w.head, 0, [], [], L, [], rfl,
        ⟨List.append_nil L, ?_, h.chain, fun h0 => absurd h0 hne, rfl,
      .refl w L⟩, rfl, by decide⟩
    rwa [List.append_nil]
  refine .loop (I := I) (fun n s w₁ hI => ?_) hstart (Nat.lt_succ_self _)
  obtain ⟨p, prev, new, used, rest, iov, rfl, hoffering, hn, hpos⟩ := hI
  refine (offerBody_spec hoffering).mono fun r w₂ hr => ?_
  obtain ⟨p', q, new', rest', iov', hturn, hexit⟩ := hr
  have hlen : iov'.length = used.length + 1 := by
    rw [hturn.offers, length_offers, List.length_append, List.length_singleton]
  rcases hexit with rfl | ⟨hlt, rfl⟩
  · refine ⟨(by simp), fun iov hiov => ?_⟩
    cases hiov
    refine ⟨new', used ++ [q], rest', hturn.split, hturn.refs, hturn.offers, ?_, hturn.linked⟩
    rw [List.length_append, List.length_singleton]
    omega
  · refine ⟨fun s hs => ⟨n - 1, by omega, p', q, new', used ++ [q], rest', iov', ?_, hturn, ?_, by
      omega⟩, by simp⟩
    · cases hs
      rfl
    · rw [List.length_append, List.length_singleton]
      omega

end Offers

/-! ## Reading -/

/-- The byte in a place. -/
def World.byteAt (w : World) (x : Nat × Nat) : UInt8 := (w.block x.1).elim 0 fun b => b.data x.2

/-- Only bytes are different. -/
structure Rewritten (w w' : World) (written : List Nat) : Prop where
  head : w'.head = w.head
  number : w'.blockNumber = w.blockNumber
  same : ∀ p b, w.block p = some b → ∃ d, w'.block p = some { b with data := d }
  others : ∀ p ∉ written, w'.block p = w.block p

section Reads
variable {w w₁ w' : World} {L : List Nat} {H : Multiset Nat} {p count total : Nat}
  {written used : List Nat}
  {iov : List Iovec} {v : Iovec} {b : Block} {ref : BlockRef} {bytes : List UInt8}

theorem byteAt_area (hb : w.block v.block = some b) (n : Nat) :
    ((v.area.take n).map w.byteAt) = readBytes b.data v.offset (min n v.len) := by
  rw [Iovec.area, ← List.map_take, List.take_range, List.map_map, readBytes]
  refine List.map_congr_left fun i _ => ?_
  simp [World.byteAt, hb]

/-- The bytes of a ref. -/
theorem bytes_area (hb : w.block ref.block = some b) :
    Buffer.bytes w ref = ref.area.map w.byteAt := by
  rw [bytes_eq hb, BlockRef.area, List.map_map, readBytes]
  refine List.map_congr_left fun i _ => ?_
  simp [World.byteAt, hb]

theorem content_area {l : List BlockRef} (h : ∀ ref ∈ l, (w.block ref.block).isSome) :
    content w l = (l.flatMap BlockRef.area).map w.byteAt := by
  rw [content, List.map_flatMap]
  refine List.flatMap_congr fun ref href => ?_
  obtain ⟨b, hb⟩ := Option.isSome_iff_exists.mp (h ref href)
  exact bytes_area hb

theorem Rewritten.offers (h : Rewritten w w' written) {ps : List Nat}
    (hsome : ∀ p ∈ ps, (w.block p).isSome) :
    ∀ p ∈ ps, w'.offset p = w.offset p ∧ w'.space p = w.space p := by
  intro p hp
  obtain ⟨b, hb⟩ := Option.isSome_iff_exists.mp (hsome p hp)
  obtain ⟨d, hb'⟩ := h.same p b hb
  rw [offset_eq hb, offset_eq hb', space_eq hb, space_eq hb']
  exact ⟨rfl, rfl⟩

/-- `readv`: the bytes are in the areas offered, one after the other. -/
theorem readv_spec (h : Refs w L H) (hiov : ∀ v ∈ iov, (w.block v.block).isSome ∧
    v.offset = w.offset v.block)
    (hnodup : (iov.map Iovec.block).Nodup) (hlen : bytes.length ≤ offered iov) :
    Returns (readv iov bytes) w fun _ w' => Refs w' L H ∧ Rewritten w w' (iov.map Iovec.block) ∧
      (Evolves w L w' L fun _ => True) ∧
      ((iov.flatMap Iovec.area).take bytes.length).map w'.byteAt = bytes := by
  induction iov generalizing w bytes with
  | nil =>
      have hnil : bytes = [] := List.eq_nil_of_length_eq_zero (Nat.le_zero.mp hlen)
      subst hnil
      exact .pure ⟨h, ⟨rfl, rfl, fun p b hb => ⟨b.data, hb⟩, fun _ _ => rfl⟩, .refl w L _, rfl⟩
  | cons v iov ih =>
      obtain ⟨hsome, hoff⟩ := hiov v List.mem_cons_self
      obtain ⟨b, hb⟩ := Option.isSome_iff_exists.mp hsome
      rw [offset_eq hb] at hoff
      obtain ⟨hnot, hnodup'⟩ := List.nodup_cons.mp hnodup
      rw [offered_cons] at hlen
      refine .bind (returns_load hb (.bind (returns_store ?_)))
      generalize hd : writeBytes b.data v.offset (bytes.take v.len) = d
      have hstored : Refs (w.setBlock v.block { b with data := d }) L H :=
        h.update hsome rfl rfl rfl (h.chain_same hb rfl rfl) (h.count _ b hb) fun _ _ => ⟨rfl, rfl⟩
      have hev : Evolves w L (w.setBlock v.block { b with data := d }) L fun _ => True := by
        refine .update hb rfl .rfl (fun _ _ hc _ hgood => hc.write b d hgood)
          (fun _ => ⟨rfl, fun _ hle => ⟨Nat.le_refl _, hle, fun i hi => ?_⟩,
            fun hnot => ⟨hnot, rfl⟩⟩)
          fun _ _ _ hnot => hnot
        simp only [← hd, writeBytes]
        rw [if_neg (by omega)]
      have hothers : ∀ u ∈ iov, u.block ≠ v.block := fun u hu heq =>
        hnot (heq ▸ List.mem_map_of_mem hu)
      refine (ih hstored (fun u hu => ?_) hnodup' (by rw [List.length_drop]; omega)).mono
        fun _ w' hw => ?_
      · obtain ⟨hu', hoff'⟩ := hiov u (List.mem_cons_of_mem _ hu)
        have hblock : (w.setBlock v.block { b with data := d }).block u.block = w.block u.block :=
          setBlock_of_ne (hothers u hu)
        rw [World.offset, hblock]
        exact ⟨hu', hoff'⟩
      · obtain ⟨hrefs, hsame, hev', hread⟩ := hw
        have hself : w'.block v.block = some { b with data := d } :=
          (hsame.others _ hnot).trans setBlock_self
        refine ⟨hrefs, ⟨hsame.head, hsame.number, fun q c hc => ?_, fun q hq => ?_⟩,
          hev.trans hev' fun _ _ => ⟨trivial, trivial⟩, ?_⟩
        · rcases eq_or_ne q v.block with rfl | hq
          · cases hb.symm.trans hc
            exact ⟨d, hself⟩
          · exact hsame.same q c ((setBlock_of_ne hq).trans hc)
        · rw [List.map_cons, List.mem_cons, not_or] at hq
          exact (hsame.others q hq.2).trans (setBlock_of_ne hq.1)
        · rw [List.length_drop] at hread
          have htake : (bytes.take v.len).length = min bytes.length v.len := by
            rw [List.length_take, Nat.min_comm]
          have hwritten : readBytes d v.offset (min bytes.length v.len) = bytes.take v.len := by
            rw [← htake, ← hd]
            exact read_write
          rw [List.flatMap_cons, List.take_append, length_area, List.map_append, byteAt_area hself,
              hread,
            hwritten, List.take_append_drop]

end Reads

/-! ## Taking -/

theorem returns_check {w : World} {c : Prop} [Decidable c] {Q : Unit → World → Prop} (hc : c)
    (hQ : Q ⟨⟩ w) :
    Returns (check c) w Q := .ite (fun _ => .pure hQ) fun hnot => absurd hc hnot

/-- What the second loop does: it makes the refs of the first blocks `used` of the list, and `p'` is
the head of what stays on it. -/
structure Taking (w : World) (used rest : List Nat) (H : Multiset Nat) (taken : List BlockRef)
    (p' : Nat)
    (w' : World) (L' : List Nat) : Prop where
  counts : Refs { w' with head := p' } L' (blocks taken + H)
  list : L' = (used.take taken.length).filter (fun q => !w'.full q)
      ++ (used ++ rest).drop taken.length
  head : w'.head = w.head
  counted : ∀ c, Counted w (used ++ rest) c → Counted w' L' c
  evolves : Evolves w (used ++ rest) w' L' fun _ => True
  others : ∀ q ∉ used, w'.block q = w.block q
  bytes : ∀ x, w'.byteAt x = w.byteAt x
  valid : AllValid w' taken

/-- The first block of the list has passed to the ref `ref`, and `next` is the head. -/
structure Passed (w : World) (p : Nat) (t : List Nat) (H : Multiset Nat) (ref : BlockRef)
    (next : Nat)
    (w₁ : World) : Prop where
  block : ref.block = p
  counts : Refs { w₁ with head := next } t (p ::ₘ H)
  head : w₁.head = w.head
  counted : ∀ c, Counted w (p :: t) c → Counted w₁ t c
  evolves : Evolves w (p :: t) w₁ t fun _ => True
  others : ∀ q ≠ p, w₁.block q = w.block q
  bytes : ∀ x, w₁.byteAt x = w.byteAt x
  valid : Valid w₁ ref
  full : w₁.full p = true

section Takes
variable {w w₁ w' : World} {L L' t us rest : List Nat} {H : Multiset Nat}
  {p p' len n count total space : Nat}
  {refs : List BlockRef} {b : Block}

theorem byteAt_update {d : Block} (hb : w.block p = some b)
    (hblock : w₁.block = Function.update w.block p (some d)) (hdata : d.data = b.data)
    (x : Nat × Nat) : w₁.byteAt x = w.byteAt x := by
  rw [World.byteAt, World.byteAt, hblock]
  rcases eq_or_ne x.1 p with heq | hne
  · rw [heq, Function.update_self, hb, Option.elim_some, Option.elim_some, hdata]
  · rw [Function.update_of_ne hne]

/-- The block is full: its reference passes from the list to the ref. -/
theorem takeFull_spec (h : Refs { w with head := p } (p :: t) H) (hb : w.block p = some b)
    (hs : b.Sound)
    (hle : b.offset ≤ b.capacity) (hlen : len ≤ b.leftSpace)
    (hblock : w₁.block =
      Function.update w.block p (some { b with offset := (b.offset + len) % 2 ^ 32 }))
    (hmallocs : w₁.mallocs = w.mallocs) (hg : w₁.gBlockNumber = w.gBlockNumber)
    (hnotes : w₁.notes = w.notes) :
    Refs { w₁ with head := b.next } t (p ::ₘ H) ∧ Evolves w (p :: t) w₁ t fun _ => True := by
  obtain ⟨hpt, _⟩ := List.nodup_cons.mp h.chain.nodup
  have hcap := hs.capacity
  have hspace := b.leftSpace_eq (by omega) hle
  constructor
  · refine h.relist (fun q => ?_) (fun q c c' hc hc' => ?_) hmallocs hg ?_ fun q => ?_
    · rcases eq_or_ne q p with rfl | hq
      · simp [hblock, hb]
      · simp [hblock, Function.update_of_ne hq]
    · rcases eq_or_ne q p with rfl | hq
      · replace hc' : w₁.block q = some c' := hc'
        rw [hblock, Function.update_self] at hc'
        cases hb.symm.trans hc
        cases hc'
        rfl
      · replace hc' : w₁.block q = some c' := hc'
        rw [hblock, Function.update_of_ne hq] at hc'
        cases hc.symm.trans hc'
        rfl
    · have hnext : World.next { w₁ with head := b.next } = w.next := next_same hb hblock rfl
      obtain ⟨_, htail⟩ := h.chain.of_cons
      replace htail : Chain w.next 0 (w.next p) t := htail
      rw [next_eq hb] at htail
      rwa [hnext]
    · rcases eq_or_ne q p with rfl | hq
      · rw [Multiset.count_cons_self, List.count_cons_self]
        omega
      · rw [Multiset.count_cons_of_ne hq, List.count_cons_of_ne hq.symm]
  · refine .update hb hblock (hnotes ▸ .rfl) (fun _ _ hc _ hgood => hc.advance b len hgood hle hlen)
      (fun _ => ⟨rfl, fun _ _ => ⟨?_, ?_, fun _ _ => rfl⟩,
        fun hnot => absurd List.mem_cons_self hnot⟩)
      fun q _ _ hnot => List.not_mem_of_not_mem_cons hnot
    · simp only
      omega
    · simp only
      omega

/-- The block is not full: it stays, and a reference is counted. -/
theorem takePart_spec (h : Refs { w with head := p } (p :: t) H) (hb : w.block p = some b)
    (hs : b.Sound)
    (hle : b.offset ≤ b.capacity) (hlen : len ≤ b.leftSpace)
    (hfull : ({ b with offset := (b.offset + len) % 2 ^ 32 } : Block).full = false)
    (hblock : w₁.block = Function.update w.block p (some { b with
      offset := ((b.offset + len) % 2 ^ 32 + 7) % 2 ^ 32 / 8 * 8, refNum := b.refNum + 1 }))
    (hmallocs : w₁.mallocs = w.mallocs) (hg : w₁.gBlockNumber = w.gBlockNumber)
    (hnotes : w₁.notes = w.notes) :
    Refs { w₁ with head := p } (p :: t) (p ::ₘ H) ∧ Evolves w (p :: t) w₁ (p :: t) fun _ =>
    True := by
  have hcap := hs.capacity
  have hspace := b.leftSpace_eq (by omega) hle
  have hdvd := hs.dvd
  simp only [Block.full, decide_eq_false_iff_not, not_le] at hfull
  constructor
  · refine h.update (by rw [hb]; rfl) hblock hmallocs hg ?_ ?_ fun q hq => ⟨?_, rfl⟩
    · have hnext : World.next { w₁ with head := p } = w.next := next_same hb hblock rfl
      rw [hnext]
      exact h.chain
    · have hcount := h.count p b hb
      simp only [Multiset.count_cons_self]
      omega
    · rw [Multiset.count_cons_of_ne hq]
  · refine .update hb hblock (hnotes ▸ .rfl) (fun c Good hc _ hgood => ?_)
      (fun _ => ⟨rfl, fun _ _ => ⟨?_, ?_, fun _ _ => rfl⟩,
        fun hnot => absurd List.mem_cons_self hnot⟩)
      fun q _ _ hnot => hnot
    · have hadvanced := hc.advance b len hgood hle hlen
      have hrounded := hc.fill _ 0 b.data hadvanced
        (by simp only [Block.full, decide_eq_false_iff_not, not_le]; exact hfull) (Nat.zero_le _)
      exact hc.relink _ (b.refNum + 1) b.next hrounded
    · simp only
      omega
    · simp only
      omega

variable {ref : BlockRef} {taken : List BlockRef} {next : Nat}

/-- The loop ends with a full block. -/
theorem Passed.taking (h : Passed w p (us ++ rest) H ref next w₁) :
    Taking w (p :: us) rest H [ref] next w₁ (us ++ rest) where
  counts := by
    rw [blocks_cons, blocks_nil, h.block, Multiset.cons_add, zero_add]
    exact h.counts
  list := by simp [h.full]
  head := h.head
  counted := h.counted
  evolves := h.evolves
  others q hq := h.others q (List.ne_of_not_mem_cons hq)
  bytes := h.bytes
  valid r hr := List.mem_singleton.mp hr ▸ h.valid

/-- The loop goes on behind a full block. -/
theorem Passed.cons (h : Passed w p (us ++ rest) H ref next w₁) (hp : p ∉ us) (hs : w₁.AllSound)
    (h' : Taking w₁ us rest (p ::ₘ H) taken p' w' L') :
    Taking w (p :: us) rest H (ref :: taken) p' w' L' where
  counts := by
    have hsame : blocks (ref :: taken) + H = blocks taken + (p ::ₘ H) := by
      rw [blocks_cons, h.block, Multiset.cons_add, Multiset.add_cons]
    rw [hsame]
    exact h'.counts
  list := by
    have hfull : w'.full p = true := by
      rw [World.full, h'.others p hp]
      exact h.full
    rw [List.length_cons, List.take_succ_cons, List.cons_append, List.drop_succ_cons,
      List.filter_cons_of_neg (by simp [hfull])]
    exact h'.list
  head := h'.head.trans h.head
  counted c hc := h'.counted c (h.counted c hc)
  evolves := h.evolves.trans h'.evolves fun _ _ => ⟨trivial, trivial⟩
  others q hq :=
      (h'.others q (List.not_mem_of_not_mem_cons hq)).trans
      (h.others q (List.ne_of_not_mem_cons hq))
  bytes x := (h'.bytes x).trans (h.bytes x)
  valid r hr := by
    rcases List.mem_cons.mp hr with rfl | hr
    · exact (h.valid.evolves hs h'.evolves trivial).1
    · exact h'.valid r hr

/-- A turn of the second loop. -/
theorem takeBody_spec {iov : List Iovec} {saved : List BlockRef} {v : Iovec}
    (h : Refs { w with head := p } (p :: us ++ rest) H) (hs : w.AllSound) (hb : w.block p = some b)
    (hle : b.offset ≤ b.capacity) (hget : iov[saved.length]? = some v)
    (hv : v.block = p ∧ v.offset = b.offset) (hlen : b.leftSpace < total → v.len = b.leftSpace) :
    Returns (takeBody iov (p, total, saved)) w fun r w₁ =>
      (total ≤ b.leftSpace ∧
        ∃ p' L', r = .inr (p', saved ++ [⟨b.offset, min total b.leftSpace, p⟩]) ∧
        Taking w (p :: us) rest H [⟨b.offset, min total b.leftSpace, p⟩] p' w₁ L') ∨
      (b.leftSpace < total ∧
        r = .inl (b.next, total - b.leftSpace, saved ++ [⟨b.offset, min total b.leftSpace, p⟩]) ∧
        Passed w p (us ++ rest) H ⟨b.offset, min total b.leftSpace, p⟩ b.next w₁) := by
  have hsound := hs p b hb
  have hcap := hsound.capacity
  have hspace := b.leftSpace_eq (by omega) hle
  have hmin : min total b.leftSpace ≤ b.leftSpace := Nat.min_le_right _ _
  rw [List.cons_append] at h
  rw [takeBody]
  refine .bind (returns_load hb ?_)
  simp only [hget]
  refine .bind (returns_check (fun hne => ?_)
      (.bind (returns_check hv (.ite (fun hfull => ?_) fun hnot => ?_))))
  · rw [hlen (by omega)]
    omega
  · refine .bind (returns_store (.bind (.modify ?_)))
    generalize hw : ({ w.setBlock p
        { b with offset := (b.offset + min total b.leftSpace) % 2 ^ 32 } with
      blockNumber := _ } : World) = w₁
    have hblock : w₁.block = Function.update w.block p (some { b with
        offset := (b.offset + min total b.leftSpace) % 2 ^ 32 }) := by rw [← hw]; rfl
    have hself : w₁.block p =
        some { b with offset := (b.offset + min total b.leftSpace) % 2 ^ 32 } := by
      rw [hblock, Function.update_self]
    obtain ⟨hcounts, hev⟩ := takeFull_spec h hb hsound hle hmin hblock (by rw [← hw]; rfl)
        (by rw [← hw]; rfl)
      (by rw [← hw]; rfl)
    have hpassed : Passed w p (us ++ rest) H ⟨b.offset, min total b.leftSpace, p⟩ b.next w₁ := by
      refine ⟨rfl, hcounts, by rw [← hw]; rfl, fun c hc => ?_, hev, fun q hq => ?_,
          byteAt_update hb hblock rfl,
        ⟨_, hself, ?_, ?_⟩, ?_⟩
      · rw [Counted, ← hw]
        rw [Counted, List.length_cons] at hc
        show (w.blockNumber + (2 ^ 32 - 1)) % 2 ^ 32 = _
        omega
      · rw [hblock, Function.update_of_ne hq]
      · simp only
        omega
      · simp only
        omega
      · rw [full_eq hself]
        exact hfull
    refine .ite (fun h0 => .pure (.inl ⟨by omega, _, _, rfl, hpassed.taking⟩)) fun hne =>
        .pure (.inr ⟨by omega, ?_, hpassed⟩)
    rw [show total - min total b.leftSpace = total - b.leftSpace by omega]
  · have hfull : ({ b with offset := (b.offset + min total b.leftSpace) % 2 ^ 32 } : Block).full =
      false :=
      Bool.not_eq_true _ ▸ hnot
    have hroom : b.offset + min total b.leftSpace + 7 < b.capacity := by
      simp only [Block.full, decide_eq_false_iff_not, not_le] at hfull
      omega
    refine .bind (returns_store
        (.bind (returns_check (by omega) (.pure (.inl ⟨by omega, p, p :: (us ++ rest), rfl, ?_⟩)))))
    generalize hw : w.setBlock p _ = w₁
    have hblock : w₁.block = Function.update w.block p (some { b with
        offset := ((b.offset + min total b.leftSpace) % 2 ^ 32 + 7) % 2 ^ 32 / 8 * 8
        refNum := b.refNum + 1 }) := by
      rw [← hw]
      rfl
    have hself := (congrFun hblock p).trans (Function.update_self ..)
    obtain ⟨hcounts, hev⟩ := takePart_spec h hb hsound hle hmin hfull hblock (by rw [← hw]; rfl)
        (by rw [← hw]; rfl)
      (by rw [← hw]; rfl)
    have hdvd := hsound.dvd
    refine ⟨?_, ?_, by rw [← hw]; rfl, fun c hc => ?_, hev, fun q hq => ?_,
        byteAt_update hb hblock rfl, fun r hr => ?_⟩
    · rw [blocks_cons, blocks_nil, Multiset.cons_add, zero_add]
      exact hcounts
    · have hstays : w₁.full p = false := by
        rw [full_eq hself]
        simp only [Block.full, decide_eq_false_iff_not, not_le]
        omega
      simp [hstays]
    · rw [Counted, ← hw]
      exact hc
    · rw [hblock, Function.update_of_ne (List.ne_of_not_mem_cons hq)]
    · rw [List.mem_singleton.mp hr]
      refine ⟨_, hself, ?_, ?_⟩
      · simp only
        omega
      · simp only
        omega

/-- The second loop takes the first blocks offered. -/
theorem takeLoop_spec {used : List Nat} {iov done : List Iovec} {saved : List BlockRef} {fuel : Nat}
    (h : Refs { w with head := p } (used ++ rest) H) (hs : w.AllSound)
    (hfits : ∀ q ∈ used, ∀ b, w.block q = some b → b.offset ≤ b.capacity)
    (hiov : iov = done ++ offers w count space used) (hsaved : saved.length = done.length)
    (hpos : 0 < total) (htotal : total ≤ offered (offers w count space used))
    (hfuel : used.length < fuel) :
    Returns (loop (takeBody iov) fuel (p, total, saved)) w fun r w' =>
      r.2 = saved ++ takes w total used ∧ ∃ L',
      Taking w used rest H (takes w total used) r.1 w' L' := by
  induction used generalizing p w total space done saved fuel H with
  | nil => exact absurd hpos (Nat.not_lt.mpr htotal)
  | cons q us ih =>
      obtain ⟨hq, _⟩ := h.chain.of_cons
      replace hq : p = q := hq
      subst hq
      have hnot : p ∉ us := fun hmem =>
        (List.nodup_cons.mp h.chain.nodup).1 (List.mem_append_left rest hmem)
      obtain ⟨b, hb⟩ := h.exists_block (.inr List.mem_cons_self)
      replace hb : w.block p = some b := hb
      have hle := hfits p List.mem_cons_self b hb
      have hget : iov[saved.length]? = some ⟨p, w.offset p, min (w.space p) (count - space)⟩ := by
        rw [hiov, hsaved, List.getElem?_append_right (Nat.le_refl _), Nat.sub_self]
        rfl
      rw [offers, offered_cons] at htotal
      simp only at htotal
      have hrest : offered (offers w count (space + min (w.space p) (count - space)) us) ≤ _ :=
          offered_le
      have hspace := space_eq hb
      cases fuel with
      | zero => exact absurd hfuel (Nat.not_lt_zero _)
      | succ fuel =>
          refine .bind ((takeBody_spec h hs hb hle hget ⟨rfl, offset_eq hb⟩ fun hlt => ?_).mono
              fun r w₁ hr => ?_)
          · simp only
            omega
          · rw [takes, offset_eq hb, hspace]
            rcases hr with ⟨hlast, p', L', rfl, htaking⟩ | ⟨hmore, rfl, hpassed⟩
            · rw [if_pos hlast]
              exact .pure ⟨rfl, L', htaking⟩
            · rw [if_neg (Nat.not_le.mpr hmore)]
              have hsame : ∀ x ∈ us, w₁.offset x = w.offset x ∧ w₁.space x = w.space x :=
                  fun x hx => by
                have hblock := hpassed.others x fun heq => hnot (heq ▸ hx)
                rw [World.offset, World.space, hblock]
                exact ⟨rfl, rfl⟩
              have hlen : min (w.space p) (count - space) = b.leftSpace := by omega
              rw [hlen] at htotal
              have hiov' : iov = done ++ [⟨p, w.offset p, b.leftSpace⟩] ++
                  offers w₁ count (space + b.leftSpace) us := by
                rw [offers_congr hsame, List.append_assoc, List.singleton_append, hiov, offers,
                    hlen]
              have hsaved' : (saved ++ [(⟨b.offset, min total b.leftSpace, p⟩ : BlockRef)]).length
                  = (done ++ [(⟨p, w.offset p, b.leftSpace⟩ : Iovec)]).length := by
                rw [List.length_append, List.length_append, hsaved]
                rfl
              have htotal' :
                  total - b.leftSpace ≤ offered (offers w₁ count (space + b.leftSpace) us) := by
                rw [offers_congr hsame]
                omega
              have hfits' : ∀ x ∈ us, ∀ c, w₁.block x = some c → c.offset ≤ c.capacity :=
                  fun x hx c hc => by
                rw [hpassed.others x fun heq => hnot (heq ▸ hx)] at hc
                exact hfits x (List.mem_cons_of_mem _ hx) c hc
              have hs₁ := hpassed.evolves.sound hs
              refine (ih hpassed.counts hs₁ hfits' hiov' hsaved' (by omega) htotal'
                (Nat.lt_of_succ_lt_succ hfuel)).mono fun r w' hr => ?_
              obtain ⟨hr, L', htaking⟩ := hr
              rw [takes_congr hsame] at hr htaking
              rw [List.append_assoc] at hr
              exact ⟨hr, L', hpassed.cons hnot hs₁ htaking⟩

end Takes

/-! ## The whole read -/

/-- A read of `bytes` into the areas of `iov`, from the blocks `all` of the list: the refs cover the
first bytes of the areas; the blocks left full, up to the last one used, leave the list; and every
block has as many references as it has holders, with the list. -/
structure Accounts (w' : World) (all L' : List Nat) (H : Multiset Nat) (iov : List Iovec)
    (bytes : List UInt8) (refs : List BlockRef) : Prop where
  areas : refs.flatMap BlockRef.area = (iov.flatMap Iovec.area).take bytes.length
  blocks : refs.map BlockRef.block = all.take refs.length
  list : L' = (all.take refs.length).filter (fun q => !w'.full q) ++ all.drop refs.length
  counts : Refs w' L' (Buffer.blocks refs + H)
  bytes : content w' refs = bytes
  valid : AllValid w' refs

section Whole
variable {w w₁ : World} {L used rest : List Nat} {H : Multiset Nat} {p count : Nat}
  {iov : List Iovec}
  {bytes : List UInt8}

/-- What follows `readv`. -/
theorem takeBytes_spec (h : Refs w (used ++ rest) H) (hs : w.AllSound)
    (hfits : ∀ q ∈ used, ∀ b, w.block q = some b → b.offset ≤ b.capacity)
    (hused : used.length ≤ kMaxIov)
    (hhead : p = w.head) (hiov : iov = offers w count 0 used) (hlen : bytes.length ≤ offered iov) :
    Returns (takeBytes p iov bytes) w fun refs w' => ∃ L',
      Accounts w' (used ++ rest) L' H iov bytes refs ∧
      (∀ c, Counted w (used ++ rest) c → Counted w' L' c) ∧
      (Evolves w (used ++ rest) w' L' fun _ => True) ∧
      (∀ ref ∈ refs, ref.offset = w.offset ref.block) ∧
      (bytes = [] → refs = [] ∧ w' = w) := by
  refine .ite (fun hnil => .pure ?_) fun hne => ?_
  · subst hnil
    refine ⟨used ++ rest, ⟨by simp, rfl, by simp, ?_, rfl, fun r hr => absurd hr List.not_mem_nil⟩,
      fun _ hc => hc, .refl w _ _, fun r hr => absurd hr List.not_mem_nil, fun _ => ⟨rfl, rfl⟩⟩
    rw [blocks_nil, zero_add]
    exact h
  · have hlisted : ∀ q ∈ used, (w.block q).isSome :=
      fun q hq => h.listed q (List.mem_append_left rest hq)
    have hnodup : (iov.map Iovec.block).Nodup := by
      rw [hiov, offers_blocks]
      exact h.chain.nodup.of_append_left
    have hplaces : ∀ v ∈ iov, (w.block v.block).isSome ∧ v.offset = w.offset v.block :=
        fun v hv => by
      rw [hiov] at hv
      obtain ⟨hmem, hoff, _⟩ := mem_offers hv
      exact ⟨hlisted _ hmem, hoff⟩
    refine .bind (returns_check hlen
        (.bind ((readv_spec h hplaces hnodup hlen).mono fun _ w₁ hw => ?_)))
    obtain ⟨h₁, hsame, hev, hread⟩ := hw
    have hiov₁ : iov = [] ++ offers w₁ count 0 used := by
      rw [offers_congr (hsame.offers hlisted)]
      exact hiov
    have hlen₁ : bytes.length ≤ offered (offers w₁ count 0 used) := by
      rw [List.nil_append] at hiov₁
      rwa [← hiov₁]
    have hfits₁ : ∀ q ∈ used, ∀ b, w₁.block q = some b → b.offset ≤ b.capacity :=
        fun q hq b hb => by
      obtain ⟨c, hc⟩ := Option.isSome_iff_exists.mp (hlisted q hq)
      obtain ⟨d, hd⟩ := hsame.same q c hc
      cases hb.symm.trans hd
      exact hfits q hq c hc
    have hp : p = w₁.head := hhead.trans hsame.head.symm
    have hloop : Refs { w₁ with head := p } (used ++ rest) H := by
      rw [hp]
      exact h₁
    refine .bind (.get (.bind (returns_check hp (.bind ?_))))
    refine (takeLoop_spec hloop (hev.sound hs) hfits₁ hiov₁ rfl (List.length_pos_iff.mpr hne) hlen₁
      (Nat.lt_succ_of_le hused)).mono fun r w₂ hr => ?_
    obtain ⟨p', saved⟩ := r
    obtain ⟨hsaved, L', htaking⟩ := hr
    replace hsaved : saved = takes w₁ bytes.length used := hsaved
    rw [← hsaved] at htaking
    have hcount : saved.length ≤ used.length := by
      rw [hsaved]
      exact length_takes_le
    have hlong : iov.length ≥ saved.length := by
      rw [hiov, length_offers]
      exact hcount
    refine .bind (returns_check hlong (.bind (returns_setHead (.pure ?_))))
    have hfirst : (used ++ rest).take saved.length = used.take saved.length :=
        List.take_append_of_le_length hcount
    have hareas : saved.flatMap BlockRef.area = (iov.flatMap Iovec.area).take bytes.length := by
      rw [hsaved, hiov₁]
      exact takes_area hlen₁
    refine ⟨L', ⟨hareas, ?_, ?_, htaking.counts, ?_, htaking.valid⟩, fun c hc => ?_, ?_,
        fun ref href => ?_,
      fun hnil => absurd hnil hne⟩
    · rw [hfirst, hsaved]
      exact takes_blocks
    · rw [hfirst]
      exact htaking.list
    · rw [content_area fun r hr => htaking.counts.held _
        (Multiset.mem_add.mpr (.inl (mem_blocks hr))), hareas]
      refine Eq.trans ?_ hread
      exact List.map_congr_left fun x _ => htaking.bytes x
    · refine htaking.counted c ?_
      rw [Counted, hsame.number]
      exact hc
    · have hmoved : Evolves w₂ L' { w₂ with head := p' } L' fun _ => True :=
        .of_eq rfl .rfl fun _ _ hq => hq
      exact (hev.trans htaking.evolves fun _ _ => ⟨trivial, trivial⟩).trans hmoved fun _ _ =>
          ⟨trivial, trivial⟩
    · have htaken : ref ∈ takes w₁ bytes.length used := hsaved ▸ href
      have hlist : ref.block ∈ used := by
        have hblocks : ref.block ∈ (takes w₁ bytes.length used).map BlockRef.block :=
            List.mem_map_of_mem htaken
        rw [takes_blocks] at hblocks
        exact List.mem_of_mem_take hblocks
      rw [mem_takes htaken]
      exact (hsame.offers hlisted _ hlist).1

/-- What follows `acquire_block`. -/
theorem offerRest_spec (h : Refs w L H) (hne : L ≠ []) : Returns (do
      let w' ← get
      check (w.head ≠ 0 ∧ w.head = w'.head)
      let iov ← loop (offerBody count) (kMaxIov + 1) (w.head, 0, 0, [])
      pure (w.head, iov) : Program (Nat × List Iovec)) w fun r w' => r.1 = w'.head ∧
          ∃ new used rest,
      L ++ new = used ++ rest ∧ Refs w' (L ++ new) H ∧ r.2 = offers w' count 0 used ∧
        used.length ≤ kMaxIov ∧ Linked w L w' new := by
  have hhead : w.head ≠ 0 := fun h0 => hne (h.chain.eq_nil_iff.mpr h0)
  refine .bind (.get
      (.bind (returns_check ⟨hhead,
      rfl⟩ (.bind ((offerLoop_spec h hne).mono fun iov w' hw => .pure ?_)))))
  obtain ⟨new, used, rest, hsplit, hrefs, hiov, hused, hlinked⟩ := hw
  exact ⟨(hlinked.head hne).symm, new, used, rest, hsplit, hrefs, hiov, hused, hlinked⟩

/-- `acquire_block()`, when no block is dropped. -/
theorem acquireBlock_head (h : Refs w L H) (hhead : ∀ b, w.block w.head = some b → b.full = false) :
    Returns acquireBlock w fun p w' => ∃ new, p = w'.head ∧ L ++ new ≠ [] ∧ Refs w' (L ++ new) H ∧
      Linked w L w' new := by
  refine .bind (.get (.bind (.bind (.get (.ite (fun h0 => ?_) fun hne => ?_)))))
  · have hnil : L = [] := h.chain.eq_nil_iff.mpr h0
    subst hnil
    obtain ⟨hH, _⟩ := h.count_fresh
    refine .bind (returns_createBlock
        (.bind (.modify (.bind (returns_setHead (.pure (.pure ?_)))))))
    refine ⟨[w.mallocs + 1], rfl, List.cons_ne_nil _ _, ?_, (fun hne => absurd rfl hne),
        fun q c hc => ?_, fun q hq => ?_,
      fun q hq => ?_, fun c hc => ?_, ?_⟩
    · refine h.create rfl rfl rfl rfl ?_ ?_ fun q hq => ⟨rfl, ?_⟩
      · refine .cons (Nat.succ_ne_zero _) ?_
        rw [next_update rfl, Function.update_self]
        exact .nil
      · simp [hH, Block.create]
      · rw [List.nil_append, List.count_cons_of_ne (Ne.symm hq)]
    · have hq : q ≠ w.mallocs + 1 := fun heq => by
        have hnone := h.fresh_none
        rw [← heq, hc] at hnone
        cases hnone
      exact ⟨c.next, (setBlock_of_ne hq).trans hc⟩
    · rw [List.mem_singleton.mp hq]
      exact h.fresh_none
    · rw [List.mem_singleton.mp hq]
      exact ⟨_, setBlock_self, Nat.zero_le _⟩
    · simp only [Counted, List.length_append, List.length_nil, List.length_singleton] at hc ⊢
      show (w.blockNumber + 1) % 2 ^ 32 = _
      omega
    · exact .create h.fresh_none rfl .rfl (fun _ _ hc _ => hc.normal _ _)
        fun q hq _ hnot => List.not_mem_cons_of_ne_of_not_mem hq hnot
  · have hL : L ≠ [] := fun hnil => hne (h.chain.eq_nil_iff.mp hnil)
    obtain ⟨t, hcons, _⟩ := h.chain.of_ne hne
    obtain ⟨b, hb⟩ := h.exists_block (p := w.head) (.inr (hcons ▸ List.mem_cons_self))
    refine .bind (returns_load hb (.ite (fun hfull => ?_) fun _ => .pure (.pure ?_)))
    · exact absurd ((hhead b hb).symm.trans hfull) Bool.false_ne_true
    · refine ⟨[], rfl, ?_, ?_, .refl w L⟩
      · rwa [List.append_nil]
      · rwa [List.append_nil]

/-- The head is not full, so all the blocks that were on the list are offered, or come after. -/
theorem offerBlocks_spec (h : Refs w L H) (hhead : ∀ b, w.block w.head = some b → b.full = false) :
    Returns (offerBlocks count) w fun r w' => r.1 = w'.head ∧ ∃ new used rest,
      L ++ new = used ++ rest ∧ Refs w' (L ++ new) H ∧ r.2 = offers w' count 0 used ∧
        used.length ≤ kMaxIov ∧ Linked w L w' new := by
  refine .bind ((acquireBlock_head h hhead).mono fun p w₁ hp => ?_)
  obtain ⟨new₁, rfl, hne, h₁, hlinked₁⟩ := hp
  refine (offerRest_spec h₁ hne).mono fun r w' hr => ?_
  obtain ⟨hr, new₂, used, rest, hsplit, hrefs, hiov, hused, hlinked₂⟩ := hr
  rw [List.append_assoc] at hsplit hrefs
  exact ⟨hr, new₁ ++ new₂, used, rest, hsplit, hrefs, hiov, hused, hlinked₁.trans hlinked₂⟩

/-- **`read_from_fd` accounts for exactly the bytes read.**  The cache is empty or its head is not
full.  Whatever the kernel answers, no `assert` fails; without bytes no ref is appended and no block
changes its offset, and otherwise it is as `Accounts` says, of the list with the new blocks at its
end; the counter is the length of the list. -/
theorem read_accounts (h : Refs w L H) (hs : w.AllSound)
    (hfits : ∀ p ∈ L, ∀ b, w.block p = some b → b.offset ≤ b.capacity)
    (hhead : ∀ b, w.block w.head = some b → b.full = false)
    (hnumber : w.blockNumber = L.length % 2 ^ 32) (count : Nat) :
    Returns (offerBlocks count) w fun offer _ =>
      ∀ bytes : List UInt8, bytes.length ≤ offered offer.2 →
      Returns (readRefs count bytes) w fun refs w' => ∃ new L', (∀ p ∈ new, w.block p = none) ∧
        Accounts w' (L ++ new) L' H offer.2 bytes refs ∧ w'.blockNumber = L'.length % 2 ^ 32 ∧
        (bytes = [] → refs = [] ∧ L' = L ++ new ∧
          ∀ p b, w.block p = some b → ∃ b', w'.block p = some b' ∧ b'.offset = b.offset) := by
  obtain ⟨r, w₁, hrun, hp, new, used, rest, hsplit, h₁, hiov, hused, hlinked⟩ :=
      offerBlocks_spec h hhead
  refine ⟨r, w₁, hrun, fun bytes hlen => .bind ⟨r, w₁, hrun, ?_⟩⟩
  have hs₁ := hlinked.evolves.sound hs
  have hfits₁ : ∀ q ∈ used, ∀ b, w₁.block q = some b → b.offset ≤ b.capacity := fun q hq b hb => by
    have hall : q ∈ L ++ new := hsplit ▸ List.mem_append_left rest hq
    rcases List.mem_append.mp hall with hold | hnew
    · obtain ⟨c, hc⟩ := h.exists_block (.inr hold)
      obtain ⟨x, hx⟩ := hlinked.same q c hc
      cases hb.symm.trans hx
      exact hfits q hold c hc
    · obtain ⟨c, hc, hle⟩ := hlinked.fits q hnew
      cases hb.symm.trans hc
      exact hle
  have hcounted : Counted w₁ (L ++ new) 0 := hlinked.counted 0 hnumber
  rw [hsplit] at h₁ hcounted
  refine (takeBytes_spec h₁ hs₁ hfits₁ hused hp hiov hlen).mono fun refs w' hw => ?_
  obtain ⟨L', haccounts, hnum, _, _, hnone⟩ := hw
  rw [← hsplit] at haccounts
  refine ⟨new, L', hlinked.fresh, haccounts, hnum 0 hcounted, fun hnil => ?_⟩
  obtain ⟨hrefs, rfl⟩ := hnone hnil
  refine ⟨hrefs, ?_, fun p b hb => ?_⟩
  · have hlist := haccounts.list
    rw [hrefs, List.length_nil, List.take_zero, List.filter_nil, List.nil_append,
        List.drop_zero] at hlist
    exact hlist
  · obtain ⟨x, hx⟩ := hlinked.same p b hb
    exact ⟨_, hx, rfl⟩

end Whole

/-- Three blocks are offered, 9000 bytes read: the first block is full, the second has room. -/
theorem read_accounts_short :
    Returns (readRefs 20000 (List.replicate 9000 7)) (.initial .plain) fun refs w' =>
      content w' refs = List.replicate 9000 7 ∧
      ∃ L, Chain w'.next 0 w'.head L ∧ w'.blockNumber = L.length % 2 ^ 32 := by
  obtain ⟨offer, w₁, hrun, hread⟩ := read_accounts (.initial .plain) (fun p b hb => by cases hb)
    (fun p hp => absurd hp List.not_mem_nil) (fun b hb => by cases hb) rfl 20000
  have hoffer : offered offer.2 = 20000 := by
    cases hrun
    rfl
  have hlen : (List.replicate 9000 (7 : UInt8)).length ≤ offered offer.2 := by
    rw [List.length_replicate, hoffer]
    decide
  refine (hread _ hlen).mono fun refs w' hw => ?_
  obtain ⟨new, L, _, haccounts, hnumber, _⟩ := hw
  exact ⟨haccounts.bytes, L, haccounts.counts.chain, hnumber⟩

end PBase.Buffer
