/-
# `PBase.Queue.Order` — the queue is first in, first out, and lets go of what it returns

A push shows in two steps: the exchange makes the node the last one, and the link makes it
reachable.  In between the list is broken before the node, and the producer owes the link
(`Linked.owed`); with several producers it may be broken at several places.  Wherever it is
not, `next` leads to the next node in the order of the exchanges.

The consumer passes a node only over a link that is there.  So it follows that order, stops at
the first gap, and the node it leaves behind is owed nothing: the one write to its `next`
after it was pushed has been done.
-/
import PBase.Queue.Model

namespace PBase.Queue

open PBase.Lib

/-! ## Neighbours in a list -/

/-- `b` comes right after `a`. -/
def Adjacent {α : Type} (l : List α) (a b : α) : Prop := ∃ l₁ l₂, l = l₁ ++ a :: b :: l₂

namespace Adjacent

variable {α : Type} {l : List α} {a b x y : α}

theorem mem (h : Adjacent l a b) : a ∈ l ∧ b ∈ l := by
  obtain ⟨l₁, l₂, rfl⟩ := h
  simp

theorem snoc (h : Adjacent l a b) (x : α) : Adjacent (l ++ [x]) a b := by
  obtain ⟨l₁, l₂, rfl⟩ := h
  exact ⟨l₁, l₂ ++ [x], by simp⟩

theorem last (l : List α) (x y : α) : Adjacent (l ++ [x] ++ [y]) x y := ⟨l, [], by simp⟩

theorem of_snoc (h : Adjacent (l ++ [x] ++ [y]) a b) : Adjacent (l ++ [x]) a b ∨ a = x ∧ b = y := by
  obtain ⟨l₁, l₂, heq⟩ := h
  rcases List.eq_nil_or_concat l₂ with rfl | ⟨l₂, z, rfl⟩
  · have heq : l ++ [x] ++ [y] = l₁ ++ [a] ++ [b] := by simpa using heq
    have h₁ := List.append_inj_left' heq rfl
    have h₂ := List.append_inj_right' heq rfl
    have h₃ := List.append_inj_right' h₁ rfl
    simp only [List.cons.injEq, and_true] at h₂ h₃
    exact .inr ⟨h₃.symm, h₂.symm⟩
  · have heq : l ++ [x] ++ [y] = (l₁ ++ a :: b :: l₂) ++ [z] := by simpa using heq
    exact .inl ⟨l₁, l₂, List.append_inj_left' heq rfl⟩

theorem cons (h : Adjacent l a b) (x : α) : Adjacent (x :: l) a b := by
  obtain ⟨l₁, l₂, rfl⟩ := h
  exact ⟨x :: l₁, l₂, rfl⟩

theorem of_cons (h : Adjacent (x :: l) a b) (hne : a ≠ x) : Adjacent l a b := by
  obtain ⟨l₁, l₂, heq⟩ := h
  cases l₁ with
  | nil => exact absurd (List.cons.inj heq).1.symm hne
  | cons z l₁ => exact ⟨l₁, l₂, (List.cons.inj heq).2⟩

end Adjacent

/-! ## Histories -/

section Histories
variable {α : Type}

/-- The nodes pushed, in the order of their exchanges. -/
def exchanged (es : List (Event α)) : List α := es.filterMap fun
  | .exchanged n => some n
  | _ => none

/-- The nodes returned. -/
def popped (es : List (Event α)) : List α := es.filterMap fun
  | .popped n => some n
  | _ => none

theorem exchanged_snoc (es : List (Event α)) (e : Event α) :
    exchanged (es ++ [e]) = exchanged es ++ exchanged [e] := List.filterMap_append

theorem popped_snoc (es : List (Event α)) (e : Event α) :
    popped (es ++ [e]) = popped es ++ popped [e] := List.filterMap_append

end Histories

/-! ## The list with its gaps -/

variable {ι α : Type}

/-- Where the nodes of the queue lead to, and who owes a link. -/
structure Linked (s : State ι α) : Prop where
  nodup : s.queued.Nodup
  head : ∃ p l, s.head = some p ∧ s.queued = p :: l
  tail : ∃ l, s.queued = l ++ [s.tail]
  last : s.next s.tail = none
  /-- A node leads to the one after it, or a producer owes the link. -/
  links : ∀ a b, Adjacent s.queued a b →
    s.next a = some b ∨ s.next a = none ∧ ∃ t, s.producer t = .link a b
  owed : ∀ t a b, s.producer t = .link a b → Adjacent s.queued a b ∧ s.next a = none
  owedOnce : ∀ t t' a b b', s.producer t = .link a b → s.producer t' = .link a b' → t = t'
  pushing : ∀ t n, (s.producer t).Pushing n →
    n ∉ s.queued ∧ ∀ t', (s.producer t').Pushing n → t' = t
  reset : ∀ t n, s.producer t = .exchange n → s.next n = none

/-- The consumer's locals are true of the head. -/
def Tested (s : State ι α) : Consumer α → Prop
  | .test p => s.head = some p
  | .read p => s.head = some p ∧ s.next p ≠ none
  | .cas p next => s.head = some p ∧ s.next p = next ∧ next ≠ none
  | _ => True

namespace Linked

variable {s : State ι α} {t : ι} {n p : α}

theorem tail_mem (h : Linked s) : s.tail ∈ s.queued := by
  obtain ⟨l, hl⟩ := h.tail
  rw [hl]
  simp

/-- Nodes outside the queue are written. -/
theorem frame (h : Linked s) {next : α → Option α} (hqueued : ∀ a ∈ s.queued, next a = s.next a)
    (hreset : ∀ t n, s.producer t = .exchange n → next n = none) :
    Linked { s with next := next } := by
  refine ⟨h.nodup, h.head, h.tail, ?_, fun a b hab => ?_, fun t a b ht => ?_, h.owedOnce, h.pushing,
    hreset⟩
  · exact (hqueued _ h.tail_mem).trans h.last
  · rw [show ({ s with next := next } : State ι α).next a = s.next a from hqueued a hab.mem.1]
    exact h.links a b hab
  · obtain ⟨hab, hnone⟩ := h.owed t a b ht
    exact ⟨hab, (hqueued a hab.mem.1).trans hnone⟩

/-- A node with a neighbour is not the last one, so nobody owes the last one a link. -/
theorem last_free (h : Linked s) (t : ι) (b : α) : s.producer t ≠ .link s.tail b := by
  intro ht
  obtain ⟨⟨l₁, l₂, heq⟩, -⟩ := h.owed t s.tail b ht
  obtain ⟨l, hl⟩ := h.tail
  have hnodup := h.nodup
  rw [heq] at hnodup
  have hend : (l₁ ++ [s.tail]) ++ (b :: l₂) = l ++ [s.tail] := by
    rw [← hl, heq, List.append_assoc]
    rfl
  have hgl := congrArg List.getLast? hend
  rw [List.getLast?_append_of_ne_nil _ (List.cons_ne_nil b l₂), List.getLast?_concat] at hgl
  exact (List.nodup_cons.mp (List.nodup_append.mp hnodup).2.1).1 (List.mem_of_getLast? hgl)

/-- A producer goes on without a link before or after. -/
theorem goto [DecidableEq ι] (h : Linked s) {q : Producer α}
    (hold : ∀ a b, s.producer t ≠ .link a b)
    (hnew : ∀ a b, q ≠ .link a b)
    (hpush : ∀ n, q.Pushing n → n ∉ s.queued ∧ ∀ t', t' ≠ t → ¬ (s.producer t').Pushing n)
    (hreset : ∀ n, q = .exchange n → s.next n = none) : Linked (s.goto t q) := by
  have hself : (s.goto t q).producer t = q := Function.update_self ..
  have hother : ∀ t', t' ≠ t → (s.goto t q).producer t' = s.producer t' := fun t' ht =>
    Function.update_of_ne ht ..
  have hlink : ∀ t' a b, (s.goto t q).producer t' = .link a b ↔ s.producer t' = .link a b := by
    intro t' a b
    rcases eq_or_ne t' t with rfl | ht
    · rw [hself]
      exact ⟨fun heq => absurd heq (hnew a b), fun heq => absurd heq (hold a b)⟩
    · rw [hother t' ht]
  refine ⟨h.nodup, h.head, h.tail, h.last, fun a b hab => ?_, fun t' a b ht' => ?_,
    fun t₁ t₂ a b b' h₁ h₂ => ?_, fun t' n ht' => ?_, fun t' n ht' => ?_⟩
  · simp only [hlink]
    exact h.links a b hab
  · exact h.owed t' a b ((hlink t' a b).mp ht')
  · exact h.owedOnce t₁ t₂ a b b' ((hlink t₁ a b).mp h₁) ((hlink t₂ a b').mp h₂)
  · rcases eq_or_ne t' t with rfl | hne
    · rw [hself] at ht'
      obtain ⟨hq, hothers⟩ := hpush n ht'
      refine ⟨hq, fun t'' ht'' => ?_⟩
      by_contra hne
      rw [hother t'' hne] at ht''
      exact hothers t'' hne ht''
    · rw [hother t' hne] at ht'
      obtain ⟨hq, hunique⟩ := h.pushing t' n ht'
      refine ⟨hq, fun t'' ht'' => ?_⟩
      rcases eq_or_ne t'' t with rfl | hne'
      · rw [hself] at ht''
        exact absurd ht' ((hpush n ht'').2 t' hne)
      · rw [hother t'' hne'] at ht''
        exact hunique t'' ht''
  · rcases eq_or_ne t' t with rfl | hne
    · rw [hself] at ht'
      exact hreset n ht'
    · rw [hother t' hne] at ht'
      exact h.reset t' n ht'

/-- The exchange: the node is the last one, and the link to it is owed. -/
theorem exchange (h : Linked s) (ht : s.producer t = .exchange n) {u : State ι α}
    (hhead : u.head = s.head) (htail : u.tail = n) (hnext : u.next = s.next)
    (hself : u.producer t = .link s.tail n) (hother : ∀ t', t' ≠ t → u.producer t' = s.producer t')
    (hqueued : u.queued = s.queued ++ [n]) : Linked u := by
  obtain ⟨hn, hunique⟩ := h.pushing t n (by rw [ht]; rfl)
  obtain ⟨l, hl⟩ := h.tail
  have hne : ∀ {t' m}, (u.producer t').Pushing m → t' ≠ t := fun ht' heq => by
    rw [heq, hself] at ht'
    exact ht'
  refine ⟨?_, ?_, ⟨s.queued, by rw [hqueued, htail]⟩, ?_, fun a b hab => ?_, fun t' a b ht' => ?_,
    fun t₁ t₂ a b b' h₁ h₂ => ?_, fun t' m ht' => ?_, fun t' m ht' => ?_⟩
  · rw [hqueued]
    exact List.nodup_append'.mpr ⟨h.nodup, List.nodup_singleton n, by simpa using hn⟩
  · obtain ⟨p, l', hp, hl'⟩ := h.head
    exact ⟨p, l' ++ [n], hhead.trans hp, by rw [hqueued, hl']; rfl⟩
  · rw [hnext, htail]
    exact h.reset t n ht
  · rw [hqueued, hl] at hab
    rw [hnext]
    rcases hab.of_snoc with hab | ⟨rfl, rfl⟩
    · rw [← hl] at hab
      refine (h.links a b hab).imp_right fun ⟨hnone, t', ht'⟩ => ⟨hnone, t', ?_⟩
      rwa [hother t' fun heq => by rw [heq, ht] at ht'; cases ht']
    · exact .inr ⟨h.last, t, hself⟩
  · rw [hqueued, hnext]
    rcases eq_or_ne t' t with rfl | hne
    · cases hself.symm.trans ht'
      refine ⟨?_, h.last⟩
      rw [hl]
      exact .last l s.tail n
    · obtain ⟨hab, hnone⟩ := h.owed t' a b ((hother t' hne).symm.trans ht')
      exact ⟨hab.snoc n, hnone⟩
  · rcases eq_or_ne t₁ t with rfl | hne₁
    · cases hself.symm.trans h₁
      by_contra hne₂
      exact h.last_free t₂ b' ((hother t₂ (Ne.symm hne₂)).symm.trans h₂)
    · have h₁ := (hother t₁ hne₁).symm.trans h₁
      rcases eq_or_ne t₂ t with rfl | hne₂
      · cases hself.symm.trans h₂
        exact absurd h₁ (h.last_free t₁ b)
      · exact h.owedOnce t₁ t₂ a b b' h₁ ((hother t₂ hne₂).symm.trans h₂)
  · have hold := hother t' (hne ht') ▸ ht'
    obtain ⟨hm, hm'⟩ := h.pushing t' m hold
    have hmn : m ≠ n := fun heq => hne ht' (hunique t' (heq ▸ hold))
    rw [hqueued]
    exact ⟨by simpa [hmn] using hm, fun t'' ht'' => hm' t'' (hother t'' (hne ht'') ▸ ht'')⟩
  · rw [hnext]
    refine h.reset t' m ((hother t' fun heq => ?_).symm.trans ht')
    rw [heq, hself] at ht'
    cases ht'

/-- The link: what was owed is paid. -/
theorem link (h : Linked s) (ht : s.producer t = .link p n) {u : State ι α}
    (hhead : u.head = s.head) (htail : u.tail = s.tail) (hnew : u.next p = some n)
    (hnext : ∀ a, a ≠ p → u.next a = s.next a) (hself : u.producer t = .idle)
    (hother : ∀ t', t' ≠ t → u.producer t' = s.producer t') (hqueued : u.queued = s.queued) :
    Linked u := by
  obtain ⟨hpn, hnone⟩ := h.owed t p n ht
  have hne : ∀ {t' q}, q ≠ .idle → u.producer t' = q → t' ≠ t := fun hq ht' heq => by
    rw [heq, hself] at ht'
    exact hq ht'.symm
  have hpush : ∀ {t' m}, (u.producer t').Pushing m → t' ≠ t := fun ht' heq => by
    rw [heq, hself] at ht'
    exact ht'
  refine ⟨hqueued ▸ h.nodup, ?_, ?_, ?_, fun a b hab => ?_, fun t' a b ht' => ?_,
    fun t₁ t₂ a b b' h₁ h₂ => ?_, fun t' m ht' => ?_, fun t' m ht' => ?_⟩
  · rw [hhead, hqueued]
    exact h.head
  · rw [htail, hqueued]
    exact h.tail
  · have hlast : s.tail ≠ p := fun heq => h.last_free t n (by rw [heq]; exact ht)
    rw [htail, hnext _ hlast]
    exact h.last
  · rw [hqueued] at hab
    rcases eq_or_ne a p with rfl | hap
    · rcases h.links a b hab with hsome | ⟨-, t', ht'⟩
      · rw [hnone] at hsome
        cases hsome
      · rw [h.owedOnce t' t a b n ht' ht, ht] at ht'
        cases ht'
        exact .inl hnew
    · rw [hnext a hap]
      refine (h.links a b hab).imp_right fun ⟨hnone, t', ht'⟩ => ⟨hnone, t', ?_⟩
      rwa [hother t' fun heq => by rw [heq, ht] at ht'; exact hap (by cases ht'; rfl)]
  · have hold := (hother t' (hne (by simp) ht')).symm.trans ht'
    obtain ⟨hab, hnone⟩ := h.owed t' a b hold
    have hap : a ≠ p := fun heq => hne (by simp) ht' (h.owedOnce t' t p b n (heq ▸ hold) ht)
    rw [hqueued, hnext a hap]
    exact ⟨hab, hnone⟩
  · exact h.owedOnce t₁ t₂ a b b' ((hother t₁ (hne (by simp) h₁)).symm.trans h₁)
      ((hother t₂ (hne (by simp) h₂)).symm.trans h₂)
  · obtain ⟨hm, hm'⟩ := h.pushing t' m (hother t' (hpush ht') ▸ ht')
    rw [hqueued]
    exact ⟨hm, fun t'' ht'' => hm' t'' (hother t'' (hpush ht'') ▸ ht'')⟩
  · have hold := (hother t' (hne (by simp) ht')).symm.trans ht'
    have hmp : m ≠ p := fun heq => by
      have hmem := hpn.mem.1
      exact (h.pushing t' m (by rw [hold]; rfl)).1 (heq ▸ hmem)
    rw [hnext m hmp]
    exact h.reset t' m hold

/-- The head is passed over its link. -/
theorem pop [DecidableEq α] (h : Linked s) (hp : s.head = some p) (hsome : s.next p ≠ none)
    {u : State ι α} (hhead : u.head = s.next p) (htail : u.tail = s.tail) (hnext : u.next = s.next)
    (hproducer : u.producer = s.producer) (hqueued : u.queued = s.queued.erase p) :
    Linked u ∧ s.queued = p :: u.queued := by
  obtain ⟨p', l, hp', hl⟩ := h.head
  cases hp.symm.trans hp'
  have hrest : u.queued = l := by rw [hqueued, hl, List.erase_cons_head]
  obtain ⟨b, l', rfl⟩ : ∃ b l', l = b :: l' := by
    cases l with
    | nil =>
        obtain ⟨l', hl'⟩ := h.tail
        have htail : s.tail = p := by
          have hone := hl'.symm.trans hl
          cases l' with
          | nil => exact (List.cons.inj hone).1
          | cons x l' => cases (List.append_eq_nil_iff.mp (List.cons.inj hone).2).2
        exact absurd h.last (htail ▸ hsome)
    | cons b l' => exact ⟨b, l', rfl⟩
  have hfirst : Adjacent s.queued p b := ⟨[], l', hl⟩
  have hlink : s.next p = some b := (h.links p b hfirst).resolve_right fun hgap => hsome hgap.1
  have hnodup := h.nodup
  rw [hl] at hnodup
  have hcons : ∀ {a c}, Adjacent u.queued a c → Adjacent s.queued a c := fun hab => by
    rw [hl, ← hrest]
    exact hab.cons p
  refine ⟨⟨?_, ⟨b, l', hhead.trans hlink, hrest⟩, ?_, ?_, fun a c hac => ?_, fun t' a c ht' => ?_,
    ?_, fun t' m ht' => ?_, ?_⟩, by rw [hl, hrest]⟩
  · rw [hrest]
    exact (List.nodup_cons.mp hnodup).2
  · obtain ⟨l₁, hl₁⟩ := h.tail
    rw [htail, hrest]
    cases l₁ with
    | nil => cases (hl₁.symm.trans hl)
    | cons x l₁ => exact ⟨l₁, ((List.cons.inj (hl₁.symm.trans hl)).2).symm⟩
  · rw [hnext, htail]
    exact h.last
  · rw [hnext, hproducer]
    exact h.links a c (hcons hac)
  · rw [hproducer] at ht'
    obtain ⟨hac, hnone⟩ := h.owed t' a c ht'
    rw [hnext, hrest]
    rw [hl] at hac
    exact ⟨hac.of_cons fun heq => hsome (heq ▸ hnone), hnone⟩
  · rw [hproducer]
    exact h.owedOnce
  · rw [hproducer] at ht' ⊢
    obtain ⟨hm, hm'⟩ := h.pushing t' m ht'
    rw [hrest]
    rw [hl] at hm
    exact ⟨fun hmem => hm (List.mem_cons_of_mem p hmem), hm'⟩
  · rw [hproducer, hnext]
    exact h.reset

end Linked

/-! ## Steps and runs -/

/-- What was returned, then what is in the queue, is `dummy_` and what was pushed. -/
structure Ordered (dummy : α) (es : List (Event α)) (s : State ι α) : Prop extends Linked s where
  tested : Tested s s.consumer
  order : popped es ++ s.queued = dummy :: exchanged es

theorem Tested.congr {s u : State ι α} {c : Consumer α} (h : Tested s c) (hhead : u.head = s.head)
    (hnext : ∀ p, s.head = some p → s.next p ≠ none → u.next p = s.next p) : Tested u c := by
  cases c with
  | idle => trivial
  | load => trivial
  | test p => exact hhead.trans h
  | read p => exact ⟨hhead.trans h.1, by rw [hnext p h.1 h.2]; exact h.2⟩
  | cas p next =>
      obtain ⟨hp, hn, hne⟩ := h
      exact ⟨hhead.trans hp, (hnext p hp (hn ▸ hne)).trans hn, hne⟩

namespace Ordered

variable {dummy : α} {es : List (Event α)} {s t : State ι α} {e : Event α}

theorem head_mem (h : Ordered dummy es s) {p : α} (hp : s.head = some p) : p ∈ s.queued := by
  obtain ⟨p', l, hp', hl⟩ := h.head
  cases hp.symm.trans hp'
  rw [hl]
  exact List.mem_cons_self

/-- A step that neither pushes nor returns a node. -/
theorem tau {nodes : List α} (h : popped es ++ s.queued = dummy :: exchanged es)
    (hqueued : t.queued = s.queued) :
    popped (es ++ [.tau nodes]) ++ t.queued = dummy :: exchanged (es ++ [.tau nodes]) := by
  have hp : popped [(.tau nodes : Event α)] = [] := rfl
  have he : exchanged [(.tau nodes : Event α)] = [] := rfl
  rw [popped_snoc, exchanged_snoc, hp, he, hqueued, List.append_nil, List.append_nil]
  exact h

variable [DecidableEq ι] [DecidableEq α]

/-- Every step. -/
theorem step (h : Ordered dummy es s) (hs : Step s e t) : Ordered dummy (es ++ [e]) t := by
  cases hs with
  | @push i node ht hfree =>
      refine ⟨h.goto (t := i) (by simp [ht]) (by simp) (fun n hn => ?_) (by simp),
        h.tested.congr rfl fun _ _ _ => rfl, tau h.order rfl⟩
      cases hn
      exact ⟨hfree.1, fun t' _ => hfree.2 t'⟩
  | @reset i node ht =>
      obtain ⟨hnode, hunique⟩ := h.pushing i node (by rw [ht]; rfl)
      have hother : ∀ a ∈ s.queued, Function.update s.next node none a = s.next a := fun a ha =>
        Function.update_of_ne (fun heq : a = node => hnode (heq ▸ ha)) ..
      have hframe : Linked { s with next := Function.update s.next node none } := by
        refine h.frame hother fun t' n ht' => ?_
        rcases eq_or_ne n node with rfl | hne
        · exact Function.update_self ..
        · exact (Function.update_of_ne hne ..).trans (h.reset t' n ht')
      refine ⟨hframe.goto (t := i) (by simp [ht]) (by simp) (fun n hn => ?_) fun n hn => ?_,
        h.tested.congr rfl fun p hp _ => hother p (h.head_mem hp), tau h.order rfl⟩
      · cases hn
        exact ⟨hnode, fun t' hne ht' => hne (hunique t' ht')⟩
      · cases hn
        exact Function.update_self ..
  | @exchange i node ht =>
      refine ⟨h.toLinked.exchange ht rfl rfl rfl (Function.update_self ..)
        (fun t' hne => Function.update_of_ne hne ..) rfl, h.tested.congr rfl fun _ _ _ => rfl, ?_⟩
      have hp : popped [(.exchanged node : Event α)] = [] := rfl
      have he : exchanged [(.exchanged node : Event α)] = [node] := rfl
      rw [popped_snoc, exchanged_snoc, hp, he, List.append_nil, ← List.append_assoc, h.order]
      rfl
  | @link i p node ht =>
      refine ⟨h.toLinked.link ht rfl rfl (Function.update_self ..)
        (fun a hne => Function.update_of_ne hne ..) (Function.update_self ..)
        (fun t' hne => Function.update_of_ne hne ..) rfl,
        h.tested.congr rfl fun q _ hne => Function.update_of_ne (fun heq => hne ?_) ..,
        tau h.order rfl⟩
      exact heq ▸ (h.owed i p node ht).2
  | pop hc => exact ⟨⟨h.nodup, h.head, h.tail, h.last, h.links, h.owed, h.owedOnce, h.pushing,
      h.reset⟩,
      trivial, tau h.order rfl⟩
  | load hc hp => exact ⟨⟨h.nodup, h.head, h.tail, h.last, h.links, h.owed, h.owedOnce, h.pushing,
      h.reset⟩, hp, tau h.order rfl⟩
  | empty hc hnone =>
      refine ⟨⟨h.nodup, h.head, h.tail, h.last, h.links, h.owed, h.owedOnce, h.pushing, h.reset⟩,
        trivial, ?_⟩
      rw [popped_snoc, exchanged_snoc]
      simpa [popped, exchanged] using h.order
  | test hc hsome =>
      have htested := h.tested
      rw [hc] at htested
      exact ⟨⟨h.nodup, h.head, h.tail, h.last, h.links, h.owed, h.owedOnce, h.pushing, h.reset⟩,
        ⟨htested, hsome⟩, tau h.order rfl⟩
  | read hc =>
      have htested := h.tested
      rw [hc] at htested
      exact ⟨⟨h.nodup, h.head, h.tail, h.last, h.links, h.owed, h.owedOnce, h.pushing, h.reset⟩,
        ⟨htested.1, rfl, htested.2⟩, tau h.order rfl⟩
  | @cas p next hc hp =>
      have htested := h.tested
      rw [hc] at htested
      obtain ⟨-, hnext, hne⟩ := htested
      obtain ⟨hlinked, hqueued⟩ := h.toLinked.pop hp (hnext ▸ hne) (u := { s with
        head := next, consumer := .idle, queued := s.queued.erase p }) hnext.symm rfl rfl rfl rfl
      refine ⟨hlinked, trivial, ?_⟩
      have hpop : popped [(.popped p : Event α)] = [p] := rfl
      have he : exchanged [(.popped p : Event α)] = [] := rfl
      rw [popped_snoc, exchanged_snoc, hpop, he, List.append_nil, List.append_assoc]
      exact (congrArg (popped es ++ ·) hqueued.symm).trans h.order
  | retry hc => exact ⟨⟨h.nodup, h.head, h.tail, h.last, h.links, h.owed, h.owedOnce, h.pushing,
      h.reset⟩, trivial, tau h.order rfl⟩
  | @recycle node next hfree =>
      have hother : ∀ a ∈ s.queued, Function.update s.next node next a = s.next a := fun a ha =>
        Function.update_of_ne (fun heq : a = node => hfree.1 (heq ▸ ha)) ..
      refine ⟨h.frame hother fun t' n ht' => ?_,
        h.tested.congr rfl fun p hp _ => hother p (h.head_mem hp), tau h.order rfl⟩
      refine (Function.update_of_ne (fun heq => hfree.2 t' ?_) ..).trans (h.reset t' n ht')
      rw [ht']
      exact heq

/-- The nodes a step touches are in the queue, or being pushed. -/
theorem touched (h : Ordered dummy es s) (hs : Step s e t) {n : α} (hn : n ∈ e.touched) :
    n ∈ s.queued ∨ ∃ i, (s.producer i).Pushing n := by
  cases hs with
  | push | exchange | pop | load | cas | retry | recycle => exact absurd hn List.not_mem_nil
  | reset i ht =>
      rw [List.mem_singleton.mp hn]
      exact .inr ⟨i, by rw [ht]; rfl⟩
  | link i ht =>
      rw [List.mem_singleton.mp hn]
      exact .inl (h.owed i _ _ ht).1.mem.1
  | empty hc =>
      have htested := h.tested
      rw [hc] at htested
      rw [List.mem_singleton.mp hn]
      exact .inl (h.head_mem htested)
  | test hc =>
      have htested := h.tested
      rw [hc] at htested
      rw [List.mem_singleton.mp hn]
      exact .inl (h.head_mem htested)
  | read hc =>
      have htested := h.tested
      rw [hc] at htested
      rw [List.mem_singleton.mp hn]
      exact .inl (h.head_mem htested.1)

end Ordered

section Runs
variable [DecidableEq ι] [DecidableEq α] {dummy : α} {es : List (Event α)} {s t : State ι α}
  {e : Event α}

theorem run_ordered (h : (linkedQueue ι dummy).Run es s) : Ordered dummy es s := by
  induction h with
  | start h₀ =>
      obtain ⟨hhead, htail, hnext, hproducer, hconsumer, hqueued⟩ := h₀
      have hnone : ∀ {a b}, ¬ Adjacent [dummy] a b := fun ⟨l₁, l₂, heq⟩ => by
        have hlen := congrArg List.length heq
        simp only [List.length_append, List.length_cons, List.length_nil] at hlen
        omega
      refine ⟨⟨by simp [hqueued], ⟨dummy, [], hhead, hqueued⟩, ⟨[], by rw [hqueued, htail]; rfl⟩,
        by rw [htail, hnext], fun a b hab => absurd (hqueued ▸ hab) hnone, by simp [hproducer],
        by simp [hproducer], by simp [hproducer, Producer.Pushing], by simp [hproducer]⟩, ?_, ?_⟩
      · rw [hconsumer]
        trivial
      · rw [hqueued]
        rfl
  | next _ hs ih => exact ih.step hs

/-- **First in, first out, and a returned node is let go.**  In every run the nodes returned,
followed by those in the queue, are `dummy_` and the nodes pushed, in the order of their
exchanges.  `pop_front` returns `nullptr` only if the head's `next` is unset, and every step
touches only nodes that are in the queue or being pushed. -/
theorem queue_in_order (h : (linkedQueue ι dummy).Run es s) :
    popped es ++ s.queued = dummy :: exchanged es ∧ s.queued.Nodup ∧
    popped es <+: dummy :: exchanged es ∧
    (Step s e t → (∀ p, e = .empty p → s.head = some p ∧ s.next p = none) ∧
      ∀ n ∈ e.touched, n ∈ s.queued ∨ ∃ i, (s.producer i).Pushing n) := by
  have hordered := run_ordered h
  refine ⟨hordered.order, hordered.nodup, ⟨s.queued, hordered.order⟩, fun hs => ⟨fun p he => ?_,
    fun n hn => hordered.touched hs hn⟩⟩
  subst he
  cases hs with
  | empty hc hnone =>
      have htested := hordered.tested
      rw [hc] at htested
      exact ⟨htested, hnone⟩

end Runs

/-- Two producers: the first one has not linked its node when the second one has, so the consumer
gets `nullptr`.  Then `dummy_` and the first node are returned, and `dummy_` is pushed. -/
theorem queue_in_order_broken : ∃ es, ∃ s : State Bool Nat, (linkedQueue Bool 0).Run es s ∧
    exchanged es = [1, 2, 0] ∧ .empty 0 ∈ es ∧ popped es = [0, 1] ∧
    popped es ++ s.queued = 0 :: exchanged es ∧ s.producer true = .link 2 0 ∧
    (2 ∈ s.queued ∨ ∃ i, (s.producer i).Pushing 2) := by
  have start : (linkedQueue Bool 0).Run []
      ⟨some 0, 0, fun _ => none, fun _ => .idle, .idle, [0]⟩ :=
    .start ⟨rfl, rfl, rfl, rfl, rfl, rfl⟩
  have first := ((start.next (@Step.push _ _ _ _ _ true 1 rfl ⟨by decide, fun _ h => h⟩)).next
    (.reset true rfl)).next (.exchange true rfl)
  have second := (((first.next (@Step.push _ _ _ _ _ false 2 rfl ⟨by decide, by
    intro t
    cases t <;> exact id⟩)).next (.reset false rfl)).next (.exchange false rfl)).next
    (.link false rfl)
  have empty := ((second.next (.pop rfl)).next (.load rfl rfl)).next (.empty (p := 0) rfl rfl)
  have linked := empty.next (.link true rfl)
  have dummy := ((((linked.next (.pop rfl)).next (.load rfl rfl)).next
    (.test (p := 0) rfl (by decide))).next (.read rfl)).next (.cas rfl rfl)
  have node := ((((dummy.next (.pop rfl)).next (.load rfl rfl)).next
    (.test (p := 1) rfl (by decide))).next (.read rfl)).next (.cas rfl rfl)
  have again := ((node.next (@Step.push _ _ _ _ _ true 0 rfl ⟨by decide, by
    intro t
    cases t <;> exact id⟩)).next (.reset true rfl)).next (.exchange true rfl)
  obtain ⟨horder, -, -, hstep⟩ := queue_in_order (e := .tau [2]) again
  exact ⟨_, _, again, rfl, by simp, rfl, horder, rfl,
    (hstep (.link true rfl)).2 2 (List.mem_singleton_self 2)⟩

end PBase.Queue
