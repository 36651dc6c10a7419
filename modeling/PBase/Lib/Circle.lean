/-
# `PBase.Lib.Circle` — circular doubly linked lists

`Circle next prev r l`: from `r` through the elements of `l` and back to `r`, every two neighbours
are linked in both directions, and nothing comes twice.  The last and the first element are
neighbours of `r`, so that a place between two elements, or before the first, or behind the last, is
a split `l₁ ++ l₂`, with the neighbours `l₁.getLastD r` and `l₂.headD r`.

* `insert` and `remove`: the links at such a place change, and no others;
* `frame`: links of other elements may change;
* `reverse`: read backwards, it is a circle again;
* `neighbours`: what the links of one element are.
-/
import Mathlib.Data.List.Chain
import Mathlib.Tactic

namespace PBase.Lib

variable {α : Type*}

/-- `b` comes after `a`. -/
def Link (next prev : α → Option α) (a b : α) : Prop := next a = some b ∧ prev b = some a

structure Circle (next prev : α → Option α) (r : α) (l : List α) : Prop where
  links : (r :: (l ++ [r])).IsChain (Link next prev)
  nodup : (r :: l).Nodup

/-- `n` is put between `p` and `e`. -/
structure Inserted (next prev next' prev' : α → Option α) (p n e : α) : Prop where
  next_self : next' n = some e
  prev_self : prev' n = some p
  next_before : next' p = some n
  prev_behind : prev' e = some n
  next_other : ∀ a, a ≠ p → a ≠ n → next' a = next a
  prev_other : ∀ a, a ≠ e → a ≠ n → prev' a = prev a

/-- `p` and `e` are made neighbours. -/
structure Joined (next prev next' prev' : α → Option α) (p e : α) : Prop where
  next_before : next' p = some e
  prev_behind : prev' e = some p
  next_other : ∀ a, a ≠ p → next' a = next a
  prev_other : ∀ a, a ≠ e → prev' a = prev a

variable {next prev next' prev' : α → Option α} {r n : α} {l l₁ l₂ : List α}

theorem links_congr (h : l.IsChain (Link next prev))
    (hs : ∀ a ∈ l, ∀ b ∈ l.tail, Link next prev a b → next' a = next a ∧ prev' b = prev b) :
    l.IsChain (Link next' prev') :=
  h.imp_of_mem_tail_imp fun a b ha hb hlink => by
    obtain ⟨hnext, hprev⟩ := hs a ha b hb hlink
    exact ⟨hnext.trans hlink.1, hprev.trans hlink.2⟩

theorem getLast?_cons_eq : (r :: l).getLast? = some (l.getLastD r) := by
  rw [List.getLast?_cons, List.getLastD_eq_getLast?]

theorem getLastD_mem : l.getLastD r ∈ r :: l := List.mem_of_getLast? getLast?_cons_eq

theorem headD_mem : l.headD r ∈ l ++ [r] := by
  cases l with
  | nil => exact List.mem_singleton.mpr rfl
  | cons x l => exact List.mem_cons_self

/-- The neighbours of a place are in the circle. -/
theorem before_mem : l₁.getLastD r ∈ r :: (l₁ ++ l₂) :=
  (List.prefix_append (r :: l₁) l₂).subset getLastD_mem

theorem behind_mem : l₂.headD r ∈ r :: (l₁ ++ l₂) := by
  have hmem := headD_mem (r := r) (l := l₂)
  simp only [List.mem_append, List.mem_cons, List.not_mem_nil, or_false] at hmem ⊢
  tauto

theorem head?_append_eq : (l ++ [r]).head? = some (l.headD r) := by
  cases l <;> rfl

/-- A place in a chain. -/
theorem links_append : (r :: (l₁ ++ l₂ ++ [r])).IsChain (Link next prev) ↔
    (r :: l₁).IsChain (Link next prev) ∧ (l₂ ++ [r]).IsChain (Link next prev) ∧
      Link next prev (l₁.getLastD r) (l₂.headD r) := by
  rw [List.append_assoc, ← List.cons_append, List.isChain_append, head?_append_eq, getLast?_cons_eq]
  simp

namespace Circle

/-- The neighbours of a place. -/
theorem link (h : Circle next prev r (l₁ ++ l₂)) : Link next prev (l₁.getLastD r) (l₂.headD r) :=
  (links_append.mp h.links).2.2

theorem empty (hnext : next r = some r) (hprev : prev r = some r) : Circle next prev r [] :=
  ⟨.cons_cons ⟨hnext, hprev⟩ (.singleton r), List.nodup_singleton r⟩

theorem frame (h : Circle next prev r l) (hs : ∀ a ∈ r :: l, next' a = next a ∧ prev' a = prev a) :
    Circle next' prev' r l := by
  have hmem : ∀ a ∈ r :: (l ++ [r]), a ∈ r :: l := fun a ha => by
    simp only [List.mem_cons, List.mem_append, List.not_mem_nil, or_false] at ha ⊢
    tauto
  refine ⟨links_congr h.links fun a ha b hb _ => ?_, h.nodup⟩
  exact ⟨(hs a (hmem a ha)).1, (hs b (hmem b (List.mem_of_mem_tail hb))).2⟩

/-- Read backwards. -/
theorem reverse (h : Circle next prev r l) : Circle prev next r l.reverse := by
  have hlist : r :: (l.reverse ++ [r]) = (r :: (l ++ [r])).reverse := by simp
  refine ⟨?_, ?_⟩
  · rw [hlist, List.isChain_reverse]
    exact h.links.imp fun a b hab => hab.symm
  · obtain ⟨hr, hl⟩ := List.nodup_cons.mp h.nodup
    exact List.nodup_cons.mpr ⟨fun hmem => hr (List.mem_reverse.mp hmem), List.nodup_reverse.mpr hl⟩

/-- The element behind a place is not before it. -/
theorem ne_behind (h : Circle next prev r (l₁ ++ l₂)) {a : α} (ha : a ∈ l₁) : a ≠ l₂.headD r := by
  obtain ⟨hr, hl⟩ := List.nodup_cons.mp h.nodup
  rintro rfl
  rcases List.mem_append.mp (headD_mem (r := r) (l := l₂)) with hmem | hmem
  · exact List.disjoint_of_nodup_append hl ha hmem
  · rw [List.mem_singleton.mp hmem] at ha
    exact hr (List.mem_append_left _ ha)

theorem ne_before (h : Circle next prev r (l₁ ++ l₂)) {a : α} (ha : a ∈ l₂) :
    a ≠ l₁.getLastD r := by
  have hrev := h.reverse
  rw [List.reverse_append] at hrev
  have hne := hrev.ne_behind (List.mem_reverse.mpr ha)
  rwa [List.headD_eq_head?_getD, List.head?_reverse, ← List.getLastD_eq_getLast?] at hne

/-- The links before a place do not notice what happens at it. -/
theorem left (h : Circle next prev r (l₁ ++ l₂))
    (hnext : ∀ a ∈ r :: l₁, a ≠ l₁.getLastD r → next' a = next a)
    (hprev : ∀ a ∈ l₁, prev' a = prev a) :
    (r :: l₁).IsChain (Link next' prev') := by
  obtain ⟨hleft, -, hlink⟩ := links_append.mp h.links
  refine links_congr hleft fun a ha b hb hab => ⟨hnext a ha fun heq => ?_, hprev b hb⟩
  -- the element before the place is linked to the one behind it, and to no other
  rw [heq] at hab
  exact h.ne_behind hb (Option.some.inj (hab.1.symm.trans hlink.1))

theorem right (h : Circle next prev r (l₁ ++ l₂))
    (hprev : ∀ a ∈ l₂ ++ [r], a ≠ l₂.headD r → prev' a = prev a)
    (hnext : ∀ a ∈ l₂, next' a = next a) :
    (l₂ ++ [r]).IsChain (Link next' prev') := by
  have hrev := h.reverse
  rw [List.reverse_append] at hrev
  have hhead : l₂.reverse.getLastD r = l₂.headD r := by
    rw [List.getLastD_eq_getLast?, List.getLast?_reverse, ← List.headD_eq_head?_getD]
  have hlinks : (r :: l₂.reverse).IsChain (Link prev' next') := by
    refine hrev.left (fun a ha hne => hprev a ?_ (hhead ▸ hne)) fun a ha =>
        hnext a (List.mem_reverse.mp ha)
    simp only [List.mem_cons, List.mem_reverse, List.mem_append, List.not_mem_nil, or_false] at ha ⊢
    exact ha.symm
  have hlist : r :: l₂.reverse = (l₂ ++ [r]).reverse := by simp
  rw [hlist, List.isChain_reverse] at hlinks
  exact hlinks.imp fun a b hab => hab.symm

theorem insert (h : Circle next prev r (l₁ ++ l₂)) (hn : n ∉ r :: (l₁ ++ l₂))
    (hi : Inserted next prev next' prev' (l₁.getLastD r) n (l₂.headD r)) :
    Circle next' prev' r (l₁ ++ n :: l₂) := by
  have hne : ∀ a ∈ r :: (l₁ ++ l₂), a ≠ n := fun a ha heq => hn (heq ▸ ha)
  simp only [List.mem_cons, List.mem_append] at hne
  have hleft : (r :: l₁).IsChain (Link next' prev') :=
    h.left (fun a ha hp => hi.next_other a hp (hne a ((List.mem_cons.mp ha).imp_right .inl)))
      fun a ha => hi.prev_other a (h.ne_behind ha) (hne a (.inr (.inl ha)))
  have hright : (l₂ ++ [r]).IsChain (Link next' prev') := by
    refine h.right (fun a ha he => hi.prev_other a he (hne a ?_)) fun a ha =>
      hi.next_other a (h.ne_before ha) (hne a (.inr (.inr ha)))
    exact (List.mem_append.mp ha).elim (fun ha => .inr (.inr ha)) fun ha =>
        .inl (List.mem_singleton.mp ha)
  refine ⟨links_append.mpr ⟨hleft, ?_, hi.next_before, hi.prev_self⟩, ?_⟩
  · rw [List.cons_append, List.isChain_cons]
    refine ⟨fun y hy => ?_, hright⟩
    obtain rfl := Option.some.inj (head?_append_eq.symm.trans hy)
    exact ⟨hi.next_self, hi.prev_behind⟩
  · have hperm : (r :: (l₁ ++ n :: l₂)).Perm (n :: r :: (l₁ ++ l₂)) :=
      (List.perm_middle.cons r).trans (List.Perm.swap ..)
    exact hperm.nodup_iff.mpr (List.nodup_cons.mpr ⟨hn, h.nodup⟩)

theorem remove (h : Circle next prev r (l₁ ++ n :: l₂))
    (hj : Joined next prev next' prev' (l₁.getLastD r) (l₂.headD r)) :
    Circle next' prev' r (l₁ ++ l₂) := by
  -- the place before the element, and the one behind it
  have h' : Circle next prev r ((l₁ ++ [n]) ++ l₂) := by rwa [List.append_cons] at h
  have hleft : (r :: l₁).IsChain (Link next' prev') :=
    h.left (fun a _ hp => hj.next_other a hp) fun a ha =>
    hj.prev_other a (h'.ne_behind (List.mem_append_left _ ha))
  have hright : (l₂ ++ [r]).IsChain (Link next' prev') :=
    h'.right (fun a _ he => hj.prev_other a he) fun a ha =>
    hj.next_other a (h.ne_before (List.mem_cons_of_mem _ ha))
  refine ⟨links_append.mpr ⟨hleft, hright, hj.next_before, hj.prev_behind⟩, ?_⟩
  have hsub : (r :: (l₁ ++ l₂)).Sublist (r :: (l₁ ++ n :: l₂)) :=
    (List.Sublist.append_left (List.sublist_cons_self n l₂) l₁).cons_cons r
  exact hsub.nodup h.nodup

/-- The neighbours of an element. -/
theorem neighbours (h : Circle next prev r (l₁ ++ n :: l₂)) :
    prev n = some (l₁.getLastD r) ∧ next n = some (l₂.headD r) := by
  have h' : Circle next prev r ((l₁ ++ [n]) ++ l₂) := by rwa [List.append_cons] at h
  have hlast : (l₁ ++ [n]).getLastD r = n := by simp
  exact ⟨h.link.2, hlast ▸ h'.link.1⟩

end Circle

end PBase.Lib
