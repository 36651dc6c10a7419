/-
# `PBase.LinkedList.Order` — lists of nodes

What the lists are for: `Lists` gives every root the nodes of its list, in order.  A call is proper
(`Proper`) if a node that is inserted is in no list, and a node it is inserted next to, or that is
removed, is in one; this is all `LinkNode` asks of its users, and it checks none of it.  In a run of
proper calls no null pointer is followed, and the pointers are those of the lists
(`lists_refined`): to walk a list forward visits its nodes in their order, and backward in the
reverse order.
-/
import PBase.Lib.Circle
import PBase.Lib.System
import PBase.LinkedList.Model

namespace PBase.LinkedList

open PBase.Lib

/-! ## Lists -/

section
variable {α : Type} [DecidableEq α]

/-- The nodes of the lists, by their roots. -/
abbrev Lists (α : Type) := α → Option (List α)

/-- The node is in no list, and is no root. -/
def Free (ls : Lists α) (n : α) : Prop := ∀ r l, ls r = some l → n ∉ r :: l

inductive Proper (ls : Lists α) : Call α → Lists α → Prop
  | construct {n : α} : Free ls n → Proper ls (.construct n) ls
  | constructList {r : α} : Free ls r → Proper ls (.constructList r)
      (Function.update ls r (some []))
  | append {r n : α} {l : List α} : ls r = some l → Free ls n →
      Proper ls (.append r n) (Function.update ls r (some (l ++ [n])))
  | insertBefore {r n e : α} {l l' : List α} : ls r = some (l ++ e :: l') → Free ls n →
      Proper ls (.insertBefore n e) (Function.update ls r (some (l ++ n :: e :: l')))
  | insertAfter {r n e : α} {l l' : List α} : ls r = some (l ++ e :: l') → Free ls n →
      Proper ls (.insertAfter n e) (Function.update ls r (some (l ++ e :: n :: l')))
  | removeFromList {r n : α} {l l' : List α} : ls r = some (l ++ n :: l') →
      Proper ls (.removeFromList n) (Function.update ls r (some (l ++ l')))
  | destroyList {r : α} {l : List α} : ls r = some l →
      Proper ls (.destroyList r) (Function.update ls r none)

def lists : System (Lists α) (Call α) where
  init ls := ∀ r, ls r = none
  step := Proper

/-! ## What the functions do -/

/-- The root and the nodes are a circle. -/
def InList (m : Memory α) (r : α) (l : List α) :
    Prop := Circle (fun a => (m a).next) (fun a => (m a).previous) r l

variable {m m' : Memory α} {ls ls' : Lists α} {r n e p : α} {l l₁ l₂ : List α} {c : Call α}
  {cs : List (Call α)}

@[simp] theorem setNext_next (m : Memory α) (a : α) (v : Option α) (b : α) :
    (m.setNext a v b).next = if b = a then v else (m b).next := by
  unfold Memory.setNext
  rcases eq_or_ne b a with rfl | hne
  · rw [Function.update_self, if_pos rfl]
  · rw [Function.update_of_ne hne, if_neg hne]

@[simp] theorem setNext_previous (m : Memory α) (a : α) (v : Option α) (b : α) :
    (m.setNext a v b).previous = (m b).previous := by
  unfold Memory.setNext
  rcases eq_or_ne b a with rfl | hne
  · rw [Function.update_self]
  · rw [Function.update_of_ne hne]

@[simp] theorem setPrevious_previous (m : Memory α) (a : α) (v : Option α) (b : α) :
    (m.setPrevious a v b).previous = if b = a then v else (m b).previous := by
  unfold Memory.setPrevious
  rcases eq_or_ne b a with rfl | hne
  · rw [Function.update_self, if_pos rfl]
  · rw [Function.update_of_ne hne, if_neg hne]

@[simp] theorem setPrevious_next (m : Memory α) (a : α) (v : Option α) (b : α) :
    (m.setPrevious a v b).next = (m b).next := by
  unfold Memory.setPrevious
  rcases eq_or_ne b a with rfl | hne
  · rw [Function.update_self]
  · rw [Function.update_of_ne hne]

/-- `n` is put between `p` and `e`. -/
def PutBetween (m : Memory α) (p n e : α) (m' : Memory α) : Prop :=
  Inserted (fun a => (m a).next) (fun a => (m a).previous) (fun a => (m' a).next)
  (fun a => (m' a).previous) p n e

theorem insertBefore_spec (hp : (m e).previous = some p) (hne : n ≠ e) (hnp : n ≠ p) :
    ∃ m', (insertBefore n e).run m = some (⟨⟩, m') ∧ PutBetween m p n e m' := by
  refine ⟨(((m.setNext n (some e)).setPrevious n (some p)).setNext p (some n)).setPrevious e
      (some n), ?_, ?_⟩
  · simp [insertBefore, setNext, setPrevious, previous, follow, hp, hne.symm]
  · constructor <;> simp +contextual [hne, hnp]

theorem insertAfter_spec (he : (m p).next = some e) (hne : n ≠ e) (hnp : n ≠ p) :
    ∃ m', (insertAfter n p).run m = some (⟨⟩, m') ∧ PutBetween m p n e m' := by
  refine ⟨(((m.setNext n (some e)).setPrevious n (some p)).setPrevious e (some n)).setNext p
      (some n), ?_, ?_⟩
  · simp [insertAfter, setNext, setPrevious, next, follow, he, hnp.symm]
  · constructor <;> simp +contextual [hne, hnp]

theorem removeFromList_spec (hp : (m n).previous = some p) (he : (m n).next = some e) :
    ∃ m', (removeFromList n).run m = some (⟨⟩, m') ∧
      Joined (fun a => (m a).next) (fun a => (m a).previous) (fun a => (m' a).next)
      (fun a => (m' a).previous) p e := by
  refine ⟨(m.setNext p (some e)).setPrevious e (some p), ?_, ?_⟩
  · simp [removeFromList, setNext, setPrevious, next, previous, follow, hp, he]
  · constructor <;> simp +contextual

/-- A walk from a node that is linked on through `l` to the root. -/
theorem walk_spec {go : α → Program α (Option α)} {f : α → Option α}
    (hgo : ∀ a, (go a).run m = some (f a, m)) {x : α}
    {fuel : Nat} {visited : List α} (hlinks : (x :: (l ++ [r])).IsChain fun a b => f a = some b)
    (hr : r ∉ l)
    (hfuel : l.length < fuel) :
    (loop (walkBody go r) fuel (f x, visited)).run m = some (visited ++ l, m) := by
  induction l generalizing x fuel visited with
  | nil =>
      obtain ⟨hx, -⟩ := List.isChain_cons_cons.mp hlinks
      obtain ⟨fuel, rfl⟩ := Nat.exists_eq_add_of_lt hfuel
      simp [loop, walkBody, hx]
  | cons y l ih =>
      rw [List.cons_append] at hlinks
      obtain ⟨hx, hlinks⟩ := List.isChain_cons_cons.mp hlinks
      obtain ⟨hy, hr⟩ := not_or.mp (mt List.mem_cons.mpr hr)
      cases fuel with
      | zero => exact absurd hfuel (Nat.not_lt_zero _)
      | succ fuel =>
          have hne : ¬ some y = some r := fun h => hy (Option.some.inj h).symm
          have hrest : (loop (walkBody go r) fuel (f y, visited ++ [y])).run m = _ :=
            ih hlinks hr (Nat.lt_of_succ_lt_succ hfuel)
          rw [loop, hx, walkBody, if_neg hne]
          simp only [follow, pure_bind, bind_assoc, StateT.run_bind, hgo y]
          rw [List.append_assoc] at hrest
          exact hrest

theorem walks (h : InList m r l) {fuel : Nat} (hfuel : l.length < fuel) :
    (forward r fuel).run m = some (l, m) ∧ (backward r fuel).run m = some (l.reverse, m) := by
  obtain ⟨hr, -⟩ := List.nodup_cons.mp h.nodup
  refine ⟨?_, ?_⟩
  · exact walk_spec (f := fun a => (m a).next) (fun _ => rfl)
      (h.links.imp fun a b hab => hab.1) hr hfuel
  · have hrev := h.reverse
    have hr' : r ∉ l.reverse := fun hmem => hr (List.mem_reverse.mp hmem)
    have hfuel' : l.reverse.length < fuel := by rwa [List.length_reverse]
    exact walk_spec (f := fun a => (m a).previous) (fun _ => rfl)
        (hrev.links.imp fun a b hab => hab.1) hr' hfuel'

/-! ## Runs -/

/-- The pointers are those of the lists, and no node is in two of them. -/
structure Represents (m : Memory α) (ls : Lists α) : Prop where
  circle : ∀ r l, ls r = some l → InList m r l
  apart : ∀ r l r' l', ls r = some l → ls r' = some l' → r ≠ r' → ∀ a ∈ r :: l, a ∉ r' :: l'

/-- A call on the list of `r` may touch the node. -/
def Own (ls : Lists α) (r a : α) : Prop := (∃ l, ls r = some l ∧ a ∈ r :: l) ∨ Free ls a

omit [DecidableEq α] in
theorem Represents.not_own (h : Represents m ls) {r' : α} {l' : List α} (hne : r' ≠ r)
    (hl' : ls r' = some l') {a : α}
    (ha : a ∈ r' :: l') : ¬ Own ls r a := by
  rintro (⟨l, hl, hmem⟩ | hfree)
  · exact h.apart r' l' r l hl' hl hne a ha hmem
  · exact hfree r' l' hl' ha

/-- One list changes. -/
theorem Represents.change (h : Represents m ls) (hl : InList m' r l)
    (hmem : ∀ a ∈ r :: l, Own ls r a)
    (hother : ∀ a, ¬ Own ls r a → (m' a).next = (m a).next ∧ (m' a).previous = (m a).previous) :
    Represents m' (Function.update ls r (some l)) := by
  have hrest : ∀ r' l', r' ≠ r → ls r' = some l' → ∀ a ∈ r :: l, a ∉ r' :: l' :=
      fun r' l' hne hl' a ha ha' =>
    h.not_own hne hl' ha' (hmem a ha)
  refine ⟨fun r' l' hl' => ?_, fun r₁ l₁ r₂ l₂ h₁ h₂ hne a ha => ?_⟩
  · rcases eq_or_ne r' r with rfl | hne
    · rw [Function.update_self] at hl'
      cases hl'
      exact hl
    · rw [Function.update_of_ne hne] at hl'
      exact (h.circle r' l' hl').frame fun a ha => hother a (h.not_own hne hl' ha)
  · rcases eq_or_ne r₁ r with rfl | hne₁
    · rw [Function.update_self] at h₁
      rw [Function.update_of_ne hne.symm] at h₂
      cases h₁
      exact hrest r₂ l₂ hne.symm h₂ a ha
    · rw [Function.update_of_ne hne₁] at h₁
      rcases eq_or_ne r₂ r with rfl | hne₂
      · rw [Function.update_self] at h₂
        cases h₂
        exact fun ha' => hrest r₁ l₁ hne₁ h₁ a ha' ha
      · rw [Function.update_of_ne hne₂] at h₂
        exact h.apart r₁ l₁ r₂ l₂ h₁ h₂ hne a ha

/-- A node is put somewhere into a list. -/
theorem Represents.put (h : Represents m ls) (hls : ls r = some (l₁ ++ l₂)) (hn : Free ls n)
    (hput : PutBetween m (l₁.getLastD r) n (l₂.headD r) m') :
    Represents m' (Function.update ls r (some (l₁ ++ n :: l₂))) := by
  have hown : ∀ a ∈ r :: (l₁ ++ l₂), Own ls r a := fun a ha => .inl ⟨_, hls, ha⟩
  refine h.change ((h.circle r _ hls).insert (hn r _ hls) hput) (fun a ha => ?_) fun a ha => ?_
  · rcases eq_or_ne a n with rfl | hne
    · exact .inr hn
    · refine hown a ?_
      simp only [List.mem_cons, List.mem_append] at ha ⊢
      tauto
  · have hnp : a ≠ l₁.getLastD r := fun heq => ha (hown a (heq ▸ before_mem))
    have hne : a ≠ l₂.headD r := fun heq => ha (hown a (heq ▸ behind_mem))
    have hnn : a ≠ n := fun heq => ha (heq ▸ .inr hn)
    exact ⟨hput.next_other a hnp hnn, hput.prev_other a hne hnn⟩

theorem Represents.join (h : Represents m ls) (hls : ls r = some (l₁ ++ n :: l₂))
    (hj : Joined (fun a => (m a).next) (fun a => (m a).previous) (fun a => (m' a).next)
      (fun a => (m' a).previous)
      (l₁.getLastD r) (l₂.headD r)) : Represents m' (Function.update ls r (some (l₁ ++ l₂))) := by
  have hown : ∀ a ∈ r :: (l₁ ++ l₂), Own ls r a := fun a ha => .inl ⟨_, hls, by
    simp only [List.mem_cons, List.mem_append] at ha ⊢
    tauto⟩
  refine h.change ((h.circle r _ hls).remove hj) hown fun a ha => ?_
  exact ⟨hj.next_other a fun heq => ha (hown a (heq ▸ before_mem)),
    hj.prev_other a fun heq => ha (hown a (heq ▸ behind_mem))⟩

omit [DecidableEq α] in
/-- A node that is free is none of the others. -/
theorem Free.ne_mem (hn : Free ls n) (hls : ls r = some l) {a : α} (ha : a ∈ r :: l) : n ≠ a :=
  fun heq => hn r l hls (heq ▸ ha)

/-- A proper call returns, and leaves the pointers of the lists after it. -/
theorem Represents.step (h : Represents m ls) (hs : Proper ls c ls') :
    ∃ m', (perform c).run m = some (⟨⟩, m') ∧ Represents m' ls' := by
  cases hs with
  | @construct n hn =>
      refine ⟨_, rfl, fun r l hls => (h.circle r l hls).frame fun a ha => ?_, h.apart⟩
      have hne : a ≠ n := (hn.ne_mem hls ha).symm
      simp [hne]
  | @constructList r hr =>
      refine ⟨_, rfl, h.change (.empty (by simp) (by simp)) (fun a ha => ?_) fun a ha => ?_⟩
      · rw [List.mem_singleton.mp ha]
        exact .inr hr
      · have hne : a ≠ r := fun heq => ha (by rw [heq]; exact .inr hr)
        simp [hne]
  | @append r n l hls hn =>
      have hls' : ls r = some (l ++ []) := by rwa [List.append_nil]
      obtain ⟨m', hrun, hput⟩ :=
          insertBefore_spec (h.circle r _ hls').link.2 (hn.ne_mem hls List.mem_cons_self)
        (hn.ne_mem hls getLastD_mem)
      exact ⟨m', hrun, h.put hls' hn hput⟩
  | @insertBefore r n e l l' hls hn =>
      obtain ⟨hprev, -⟩ := (h.circle r _ hls).neighbours
      obtain ⟨m', hrun, hput⟩ := insertBefore_spec hprev (hn.ne_mem hls behind_mem)
          (hn.ne_mem hls before_mem)
      exact ⟨m', hrun, h.put hls hn hput⟩
  | @insertAfter r n e l l' hls hn =>
      obtain ⟨-, hnext⟩ := (h.circle r _ hls).neighbours
      have hls' : ls r = some ((l ++ [e]) ++ l') := by rwa [← List.append_cons]
      obtain ⟨m', hrun, hput⟩ := insertAfter_spec hnext (hn.ne_mem hls' behind_mem)
          (hn.ne_mem hls (by simp))
      have hput' : PutBetween m ((l ++ [e]).getLastD r) n (l'.headD r) m' := by
        rwa [List.getLastD_concat]
      have hrep := h.put hls' hn hput'
      rw [← List.append_cons] at hrep
      exact ⟨m', hrun, hrep⟩
  | @removeFromList r n l l' hls =>
      obtain ⟨hprev, hnext⟩ := (h.circle r _ hls).neighbours
      obtain ⟨m', hrun, hj⟩ := removeFromList_spec hprev hnext
      exact ⟨m', hrun, h.join hls hj⟩
  | @destroyList r l hls =>
      have hstays : ∀ r' l', Function.update ls r none r' = some l' → ls r' = some l' :=
          fun r' l' hl' => by
        rcases eq_or_ne r' r with rfl | hne
        · rw [Function.update_self] at hl'
          cases hl'
        · rwa [Function.update_of_ne hne] at hl'
      exact ⟨m, rfl, fun r' l' hl' => h.circle r' l' (hstays r' l' hl'),
        fun r₁ l₁ r₂ l₂ h₁ h₂ => h.apart r₁ l₁ r₂ l₂ (hstays r₁ l₁ h₁) (hstays r₂ l₂ h₂)⟩

/-- The memory after a call. -/
def after (m : Memory α) (c : Call α) : Option (Memory α) := ((perform c).run m).map Prod.snd

theorem run_represents (h : lists.Run cs ls) (m₀ : Memory α) : ∃ m, cs.foldlM after m₀ = some m ∧
    Represents m ls := by
  induction h with
  | @start ls h₀ =>
      have hno : ∀ r l, ls r ≠ some l := fun r l hl => by
        rw [h₀ r] at hl
        cases hl
      exact ⟨m₀, rfl, fun r l hl => absurd hl (hno r l), fun r l _ _ hl => absurd hl (hno r l)⟩
  | next _ hs ih =>
      obtain ⟨m, hm, hrep⟩ := ih
      obtain ⟨m', hrun, hrep'⟩ := hrep.step hs
      refine ⟨m', ?_, hrep'⟩
      rw [List.foldlM_append, hm]
      show (after m _ >>= _) = _
      rw [after, hrun]
      rfl

/-- **Lists of nodes.**  Proper calls follow no null pointer, and after them a walk along the
`next_` pointers of a list visits its nodes in order, one along the `previous_` pointers in the
reverse order, and both come to the end. -/
theorem lists_refined (h : lists.Run cs ls) (m₀ : Memory α) : ∃ m, cs.foldlM after m₀ = some m ∧
    ∀ r l, ls r = some l → ∀ fuel, l.length < fuel →
      (forward r fuel).run m = some (l, m) ∧ (backward r fuel).run m = some (l.reverse, m) := by
  obtain ⟨m, hm, hrep⟩ := run_represents h m₀
  exact ⟨m, hm, fun r l hl fuel hfuel => walks (hrep.circle r l hl) hfuel⟩

/-- The node is free still if it is not in the list that changes. -/
theorem Free.update (h : Free ls n) (hn : n ∉ r :: l) : Free (Function.update ls r (some l)) n := by
  intro r' l' hl'
  rcases eq_or_ne r' r with rfl | hne
  · rw [Function.update_self] at hl'
    cases hl'
    exact hn
  · rw [Function.update_of_ne hne] at hl'
    exact h r' l' hl'

end

/-- Three nodes are put in, each by another function, and one is removed. -/
theorem lists_refined_three : ∃ m : Memory Nat, (forward 0 3).run m = some ([1, 3], m) ∧
    (backward 0 3).run m = some ([3, 1], m) := by
  have hnone : ∀ n : Nat, Free (fun _ => none) n := fun _ _ _ h => by cases h
  have start : lists.Run [] fun _ : Nat => none := .start fun _ => rfl
  have made := start.next (.constructList (hnone 0))
  have one := made.next (.append (r := 0) (n := 1) rfl ((hnone 1).update (by decide)))
  have two := one.next
      (.insertAfter (r := 0) (n := 3) (l := []) rfl
      (((hnone 3).update (by decide)).update (by decide)))
  have three := two.next (.insertBefore (r := 0) (n := 2) (l := [1]) rfl
    ((((hnone 2).update (by decide)).update (by decide)).update (by decide)))
  have removed := three.next (.removeFromList (r := 0) (n := 2) (l := [1]) rfl)
  obtain ⟨m, -, hwalks⟩ := lists_refined removed fun _ => ⟨none, none⟩
  exact ⟨m, hwalks 0 _ rfl 3 (by decide)⟩

end PBase.LinkedList
