/-
# `PBase.Stack.Linearize` — the stacks are linearizable, ABA or not

The specification is a pair of lists.  `apply` is what one event does to them: a
successful push conses at its CAS, a successful pop removes the top at its CAS and
must have returned it, a pop that returns 0 is only allowed on an empty stack.  The
result (`stacks_linearizable`) is that every history replays, that the concrete
chains are always the lists it replays to, and that every node is in exactly one
stack or owned by exactly one thread.

The case that needs an argument is the CAS of a pop, which installs a `next` read
earlier, while other threads may have popped that node and pushed it again, here or
on the other stack.  What saves it: a node in a stack carries its push count as its
version, so if the head is still the word that was loaded, and fewer than 2^32 pushes
happened since, then no push happened since.  And as long as no push of the node
happens, the node being in the stack means it never left, so nobody wrote its `next`
(`PopSound`).
-/
import PBase.Stack.Model

namespace PBase.Stack

open PBase.Lib

/-! ## The specification -/

/-- The two stacks as lists of ids, top first. -/
abbrev Spec := StackId → List Nat

variable {ι : Type} [DecidableEq ι]

/-- One event on the lists; `none` if the lists do not allow it. -/
def apply (σ : Spec) : Event ι → Option Spec
  | .tau => some σ
  | .pushed _ st value => some (Function.update σ st (value :: σ st))
  | .popped _ st value =>
      match σ st with
      | v :: rest => if v = value then some (Function.update σ st rest) else none
      | [] => none
  | .empty _ st => if σ st = [] then some σ else none

/-- A history on two empty stacks. -/
def replay (es : List (Event ι)) : Option Spec := es.foldlM apply fun _ => []

omit [DecidableEq ι] in
theorem replay_snoc {es : List (Event ι)} {e : Event ι} {σ σ' : Spec}
    (h : replay es = some σ) (he : apply σ e = some σ') : replay (es ++ [e]) = some σ' := by
  simp only [replay, List.foldlM_append, List.foldlM_cons, List.foldlM_nil] at *
  simp [h, he]

/-! ## Where the nodes are -/

/-- The id a thread is pushing: it owns that node until its CAS. -/
def Pc.pushing : Pc → List Nat
  | .pushLoad _ value | .pushWrite _ value _ | .pushCas _ value _ => [value]
  | _ => []

/-- A stack, or the hands of a thread. -/
inductive Place (ι : Type) where
  | stack (st : StackId)
  | thread (t : ι)

/-- The nodes at a place, for the stacks `σ`. -/
def nodesAt (s : State ι) (σ : Spec) : Place ι → List Nat
  | .stack st => (σ st).map node
  | .thread t => ((s.pc t).pushing ++ s.held t).map node

/-! ## The invariant -/

/-- What a pop between its load and its CAS relies on.  `seen` is the push count of
the node at the load: while it has not moved and the node is in the stack, the `next`
that was read is still the node's. -/
def PopSound (s : State ι) (σ : Spec) : Pc → Prop
  | .popNext _ p seen => p ≠ 0 ∧ seen ≤ s.pushes (node p) ∧ high p = seen % 2 ^ 32
  | .popCas st p next seen =>
      (p ≠ 0 ∧ seen ≤ s.pushes (node p) ∧ high p = seen % 2 ^ 32) ∧
        (s.pushes (node p) = seen → p ∈ σ st → s.next (node p) = next)
  | _ => True

structure Inv (s : State ι) (σ : Spec) : Prop where
  chain : ∀ st, Chain (fun w => s.next (node w)) 0 (s.head st) (σ st)
  placed : Placed (nodesAt s σ) (· ∈ s.created)
  proper : ∀ n ∈ s.created, 0 < n
  unused : ∀ n, n ∉ s.created → s.pushes n = 0
  inStack : ∀ st, ∀ v ∈ σ st, v < 2 ^ 64 ∧ high v = s.pushes (node v) % 2 ^ 32
  inHand : ∀ t, ∀ v ∈ s.held t, v < 2 ^ 64 ∧ high v = s.pushes (node v) % 2 ^ 32
  inPush : ∀ t, ∀ v ∈ (s.pc t).pushing,
    v < 2 ^ 64 ∧ high v = (s.pushes (node v) + 1) % 2 ^ 32
  written : ∀ t st value p, s.pc t = .pushCas st value p → s.next (node value) = p
  pops : ∀ t, PopSound s σ (s.pc t)

omit [DecidableEq ι] in
/-- What a pop relies on stays, if nothing was done to the nodes that were not pushed. -/
theorem PopSound.mono {s s' : State ι} {σ σ' : Spec} {q : Pc} (h : PopSound s σ q)
    (hgrow : ∀ n, s.pushes n ≤ s'.pushes n)
    (hkeep : ∀ st v, s'.pushes (node v) = s.pushes (node v) → v ∈ σ' st →
      v ∈ σ st ∧ s'.next (node v) = s.next (node v)) : PopSound s' σ' q := by
  cases q with
  | popNext st p seen => exact ⟨h.1, h.2.1.trans (hgrow _), h.2.2⟩
  | popCas st p next seen =>
      obtain ⟨⟨hp, hle, hver⟩, hnext⟩ := h
      refine ⟨⟨hp, hle.trans (hgrow _), hver⟩, fun hseen hmem => ?_⟩
      -- a push of the popped node itself would have moved its count past `seen`
      have hsame : s'.pushes (node p) = s.pushes (node p) :=
        Nat.le_antisymm (hseen ▸ hle) (hgrow _)
      obtain ⟨hold, hn⟩ := hkeep st p hsame hmem
      exact hn.trans (hnext (hsame ▸ hseen) hold)
  | idle | pushLoad _ _ | pushWrite _ _ _ | pushCas _ _ _ | popLoad _ => trivial

namespace Inv

variable {s s' : State ι} {σ : Spec}

omit [DecidableEq ι]

theorem mem_pushing {t : ι} {v : Nat} (hv : v ∈ (s.pc t).pushing) :
    node v ∈ nodesAt s σ (.thread t) :=
  List.mem_map_of_mem (List.mem_append_left _ hv)

/-- A node in a stack is not being pushed by anyone. -/
theorem stack_ne_pushing (h : Inv s σ) {st : StackId} {t : ι} {v w : Nat} (hv : v ∈ σ st)
    (hw : w ∈ (s.pc t).pushing) : node v ≠ node w := by
  intro heq
  have hmem : node v ∈ nodesAt s σ (.stack st) := List.mem_map_of_mem hv
  cases h.placed.apart (heq ▸ hmem) (mem_pushing (σ := σ) hw)

/-- Two threads never push the same node. -/
theorem pushing_apart (h : Inv s σ) {t u : ι} {v w : Nat} (hv : v ∈ (s.pc t).pushing)
    (hw : w ∈ (s.pc u).pushing) (heq : node v = node w) : t = u :=
  Place.thread.inj (h.placed.apart (mem_pushing (σ := σ) hv) (heq ▸ mem_pushing (σ := σ) hw))

theorem ne_zero_of_placed (h : Inv s σ) {p : Place ι} {v : Nat} (hv : node v ∈ nodesAt s σ p) :
    v ≠ 0 :=
  ne_zero_of_low (Nat.ne_of_gt (h.proper _ (h.placed.mem_all hv)))

/-- A thread holds no second id of the node it pushes. -/
theorem held_ne_pushing (h : Inv s σ) {t u : ι} {v w : Nat} (hv : v ∈ s.held u)
    (hw : w ∈ (s.pc t).pushing) : node v ≠ node w := by
  intro heq
  have hu : node v ∈ nodesAt s σ (.thread u) :=
    List.mem_map_of_mem (List.mem_append_right _ hv)
  cases Place.thread.inj (h.placed.apart (heq ▸ hu) (mem_pushing (σ := σ) hw))
  have hnodup := h.placed.nodup (.thread t)
  rw [nodesAt, List.map_append] at hnodup
  exact List.disjoint_of_nodup_append hnodup (List.mem_map_of_mem hw)
    (heq ▸ List.mem_map_of_mem hv)

/-- The word on top of a stack that a pop loaded is current: if it is the head again
and fewer than 2^32 pushes of it happened, none did. -/
theorem seen_current (h : Inv s σ) {t : ι} {st : StackId} {p next seen : Nat}
    (ht : s.pc t = .popCas st p next seen) (hp : p ∈ σ st)
    (hfew : s.pushes (node p) < seen + 2 ^ 32) : s.pushes (node p) = seen := by
  have hpop := h.pops t
  rw [ht] at hpop
  have hver := (h.inStack st p hp).2
  have hseen := hpop.1.2.2
  have hle := hpop.1.2.1
  omega

/-! ### Steps that only move a thread -/

variable [DecidableEq ι]

/-- A thread moves and keeps the id it is pushing, if any. -/
theorem goto (h : Inv s σ) (t : ι) {p : Pc} (hpush : p.pushing = (s.pc t).pushing)
    (hwritten : ∀ st value q, p = .pushCas st value q → s.next (node value) = q)
    (hpop : PopSound s σ p) : Inv (s.goto t p) σ := by
  have hpushing : ∀ u, ((s.goto t p).pc u).pushing = (s.pc u).pushing := by
    intro u
    by_cases hu : u = t
    · subst hu; simp [State.goto, hpush]
    · simp [State.goto, Function.update_of_ne hu]
  have hnodes : nodesAt (s.goto t p) σ = nodesAt s σ := by
    funext pl
    cases pl with
    | stack st => rfl
    | thread u => simp only [nodesAt, hpushing]; rfl
  exact
    { chain := h.chain
      placed := hnodes ▸ h.placed
      proper := h.proper
      unused := h.unused
      inStack := h.inStack
      inHand := h.inHand
      inPush := fun u v hv => h.inPush u v (hpushing u ▸ hv)
      written := by
        refine (Function.forall_update_iff _ fun u q => ∀ st value r, q = Pc.pushCas st value r →
          s.next (node value) = r).mpr ⟨hwritten, fun u _ => h.written u⟩
      pops := (Function.forall_update_iff _ fun _ q => PopSound s σ q).mpr
        ⟨hpop, fun u _ => h.pops u⟩ }

/-! ### Steps of a client -/

/-- A new node in the hands of a thread. -/
theorem create (h : Inv s σ) (t : ι) {id : Nat} (hpos : 0 < id) (hlt : id < 2 ^ 32)
    (hnew : id ∉ s.created) :
    Inv { s with
      created := id :: s.created
      held := Function.update s.held t (id :: s.held t) } σ where
  chain := h.chain
  placed := by
    have hnode : node id = id := low_of_lt hlt
    have hcreate : Placed (nodesAt { s with
        created := id :: s.created
        held := Function.update s.held t (id :: s.held t) } σ) _ := h.placed.create [.thread t]
      (List.nodup_singleton id) (by simpa using hnew) (List.nodup_singleton _)
      (by
        simp only [nodesAt, List.flatMap_cons, List.flatMap_nil, List.append_nil,
          Function.update_self, List.map_append, List.map_cons, hnode]
        exact List.perm_middle)
      (by
        intro pl hpl
        cases pl with
        | stack st => exact .refl _
        | thread u =>
            have hu : u ≠ t := fun hu => hpl (hu ▸ List.mem_singleton_self _)
            simp only [nodesAt, Function.update_of_ne hu]
            exact .refl _)
    simpa [List.mem_cons] using hcreate
  proper n hn := by
    rcases List.mem_cons.mp hn with rfl | hn
    · exact hpos
    · exact h.proper n hn
  unused n hn := h.unused n fun hmem => hn (List.mem_cons_of_mem _ hmem)
  inStack := h.inStack
  inHand := by
    refine (Function.forall_update_iff _ fun _ l => ∀ v ∈ l, v < 2 ^ 64 ∧
      high v = s.pushes (node v) % 2 ^ 32).mpr ⟨fun v hv => ?_, fun u _ => h.inHand u⟩
    rcases List.mem_cons.mp hv with rfl | hv
    · refine ⟨by omega, ?_⟩
      rw [high_of_lt hlt, node, low_of_lt hlt, h.unused v hnew, Nat.zero_mod]
    · exact h.inHand t v hv
  inPush := h.inPush
  written := h.written
  pops := h.pops

/-- A thread starts to push an id it holds: its version moves on. -/
theorem push (h : Inv s σ) (t : ι) (st : StackId) {value : Nat} (ht : s.pc t = .idle)
    (hmem : value ∈ s.held t) :
    Inv { s with
      held := Function.update s.held t ((s.held t).erase value)
      pc := Function.update s.pc t (.pushLoad st (nextVersion value)) } σ where
  chain := h.chain
  placed := by
    refine h.placed.perm fun pl => ?_
    cases pl with
    | stack st => exact .refl _
    | thread u =>
        by_cases hu : u = t
        · subst hu
          have hperm := (List.perm_cons_erase hmem).map node
          simp only [nodesAt, Function.update_self, Pc.pushing, ht, List.nil_append,
            List.cons_append, List.map_cons, nextVersion, node, low_bump] at hperm ⊢
          exact hperm.symm
        · simp only [nodesAt, Function.update_of_ne hu]
          exact .refl _
  proper := h.proper
  unused := h.unused
  inStack := h.inStack
  inHand := by
    refine (Function.forall_update_iff _ fun _ l => ∀ v ∈ l, v < 2 ^ 64 ∧
      high v = s.pushes (node v) % 2 ^ 32).mpr ⟨fun v hv => ?_, fun u _ => h.inHand u⟩
    exact h.inHand t v (List.mem_of_mem_erase hv)
  inPush := by
    refine (Function.forall_update_iff _ fun _ p => ∀ v ∈ Pc.pushing p, v < 2 ^ 64 ∧
      high v = (s.pushes (node v) + 1) % 2 ^ 32).mpr ⟨fun v hv => ?_, fun u _ => h.inPush u⟩
    rw [List.mem_singleton.mp hv]
    refine ⟨bump_lt 1 value, ?_⟩
    have hver := (h.inHand t value hmem).2
    have hhigh : high (nextVersion value) = (high value + 1) % 2 ^ 32 := high_bump 1 value
    have hnode : node (nextVersion value) = node value := low_bump 1 value
    rw [hhigh, hnode, hver]
    exact Nat.mod_add_mod _ _ _
  written := by
    refine (Function.forall_update_iff _ fun _ p => ∀ st value q, p = Pc.pushCas st value q →
      s.next (node value) = q).mpr ⟨(fun _ _ _ hp => nomatch hp), fun u _ => h.written u⟩
  pops := (Function.forall_update_iff _ fun _ p => PopSound s σ p).mpr
    ⟨trivial, fun u _ => h.pops u⟩

/-! ### The accesses to a node and to a head -/

/-- `node->next = p` by the thread that pushes the node: nobody else reads it. -/
theorem pushWrite (h : Inv s σ) (t : ι) {st : StackId} {value p : Nat}
    (ht : s.pc t = .pushWrite st value p) :
    Inv { s with
      next := Function.update s.next (node value) p
      pc := Function.update s.pc t (.pushCas st value p) } σ := by
  have hpushing : value ∈ (s.pc t).pushing := by simp [ht, Pc.pushing]
  have hnext : ∀ st', ∀ w ∈ σ st', Function.update s.next (node value) p (node w)
      = s.next (node w) := fun st' w hw =>
    Function.update_of_ne (h.stack_ne_pushing hw hpushing) _ _
  refine
    { chain := fun st' => (h.chain st').frame fun w hw => hnext st' w hw
      placed := h.placed.perm fun pl => ?_
      proper := h.proper
      unused := h.unused
      inStack := h.inStack
      inHand := h.inHand
      inPush := ?_
      written := ?_
      pops := ?_ }
  · cases pl with
    | stack st => exact .refl _
    | thread u =>
        by_cases hu : u = t
        · subst hu; simp [nodesAt, ht, Pc.pushing]
        · simp [nodesAt, Function.update_of_ne hu]
  · refine (Function.forall_update_iff _ fun _ q => ∀ v ∈ Pc.pushing q, v < 2 ^ 64 ∧
      high v = (s.pushes (node v) + 1) % 2 ^ 32).mpr ⟨fun v hv => ?_, fun u _ => h.inPush u⟩
    refine h.inPush t v ?_
    simpa [ht, Pc.pushing] using hv
  · intro u st' v q hu
    by_cases hut : u = t
    · subst hut
      simp only [Function.update_self, Pc.pushCas.injEq] at hu
      obtain ⟨_, rfl, rfl⟩ := hu
      exact Function.update_self ..
    · simp only [Function.update_of_ne hut] at hu
      have hne : node v ≠ node value := fun heq =>
        hut (h.pushing_apart (by simp [hu, Pc.pushing]) hpushing heq)
      simp only [Function.update_of_ne hne]
      exact h.written u st' v q hu
  · refine (Function.forall_update_iff _ fun _ q => PopSound _ σ q).mpr ⟨trivial, fun u _ => ?_⟩
    exact (h.pops u).mono (fun _ => Nat.le_refl _) fun st' v _ hv => ⟨hv, hnext st' v hv⟩

/-- The successful CAS of a push. -/
theorem pushCas (h : Inv s σ) (t : ι) {st : StackId} {value p : Nat}
    (ht : s.pc t = .pushCas st value p) (hhead : s.head st = p) :
    Inv { s with
      head := Function.update s.head st value
      pc := Function.update s.pc t .idle
      pushes := Function.update s.pushes (node value) (s.pushes (node value) + 1) }
      (Function.update σ st (value :: σ st)) := by
  have hpushing : value ∈ (s.pc t).pushing := by simp [ht, Pc.pushing]
  have hcreated : node value ∈ s.created := h.placed.mem_all (mem_pushing (σ := σ) hpushing)
  have hpushes : ∀ n, n ≠ node value →
      Function.update s.pushes (node value) (s.pushes (node value) + 1) n = s.pushes n :=
    fun n hn => Function.update_of_ne hn _ _
  refine
    { chain := ?_
      placed := ?_
      proper := h.proper
      unused := fun n hn => ?_
      inStack := ?_
      inHand := fun u v hv => ?_
      inPush := ?_
      written := ?_
      pops := ?_ }
  · refine (Function.forall_update_iff _ fun st' l => Chain (fun w => s.next (node w)) 0
      (Function.update s.head st value st') l).mpr ⟨?_, fun st' hst' => ?_⟩
    · rw [Function.update_self]
      refine .cons (h.ne_zero_of_placed (mem_pushing hpushing)) ?_
      show Chain _ 0 (s.next (node value)) (σ st)
      rw [h.written t st value p ht, ← hhead]
      exact h.chain st
    · rw [Function.update_of_ne hst']
      exact h.chain st'
  · refine h.placed.move (p := .thread t) (q := .stack st) (by simp) [node value] ?_ ?_ ?_
    · simp [nodesAt, ht, Pc.pushing]
    · simp [nodesAt]
    · rintro (st' | u) hp hq
      · have hst' : st' ≠ st := fun hst => hq (hst ▸ rfl)
        simp [nodesAt, Function.update_of_ne hst']
      · have hu : u ≠ t := fun hut => hp (hut ▸ rfl)
        simp [nodesAt, Function.update_of_ne hu]
  · show Function.update s.pushes _ _ n = 0
    rw [hpushes n fun hn' => hn (hn' ▸ hcreated)]
    exact h.unused n hn
  · -- the pushed node has its new version, the others their old one
    have hold : ∀ st', ∀ v ∈ σ st', v < 2 ^ 64 ∧
        high v = Function.update s.pushes (node value) (s.pushes (node value) + 1) (node v)
          % 2 ^ 32 := fun st' v hv => by
      rw [hpushes _ (h.stack_ne_pushing hv hpushing)]
      exact h.inStack st' v hv
    refine (Function.forall_update_iff _ fun _ l => ∀ v ∈ l, v < 2 ^ 64 ∧ high v
      = Function.update s.pushes (node value) (s.pushes (node value) + 1) (node v) % 2 ^ 32).mpr
      ⟨fun v hv => ?_, fun st' _ => hold st'⟩
    rcases List.mem_cons.mp hv with rfl | hv
    · rw [Function.update_self]
      exact h.inPush t v hpushing
    · exact hold st v hv
  · show _ ∧ _ = Function.update s.pushes _ _ _ % _
    rw [hpushes _ (h.held_ne_pushing hv hpushing)]
    exact h.inHand u v hv
  · refine (Function.forall_update_iff _ fun _ q => ∀ v ∈ Pc.pushing q, v < 2 ^ 64 ∧
      high v = (Function.update s.pushes (node value) (s.pushes (node value) + 1) (node v) + 1)
        % 2 ^ 32).mpr ⟨fun v hv => by simp [Pc.pushing] at hv, fun u hut v hv => ?_⟩
    rw [hpushes _ fun heq => hut (h.pushing_apart hv hpushing heq)]
    exact h.inPush u v hv
  · refine (Function.forall_update_iff _ fun _ q => ∀ st value r, q = Pc.pushCas st value r →
      s.next (node value) = r).mpr ⟨(fun _ _ _ hq => nomatch hq), fun u _ => h.written u⟩
  · refine (Function.forall_update_iff _ fun _ q => PopSound _ _ q).mpr
      ⟨trivial, fun u _ => ?_⟩
    refine (h.pops u).mono (fun n => ?_) fun st' v hsame hv => ?_
    · show s.pushes n ≤ Function.update s.pushes _ _ n
      by_cases hn : n = node value
      · subst hn; rw [Function.update_self]; omega
      · rw [hpushes n hn]
    · have hne : node v ≠ node value := fun heq => by
        simp only [heq, Function.update_self] at hsame
        omega
      refine ⟨?_, rfl⟩
      by_cases hst' : st' = st
      · subst hst'
        rw [Function.update_self] at hv
        exact (List.mem_cons.mp hv).resolve_left fun heq => hne (heq ▸ rfl)
      · rwa [Function.update_of_ne hst'] at hv

/-- The successful CAS of a pop: the word it loaded is the top, and the `next` it read
is the node's. -/
theorem popCas (h : Inv s σ) (t : ι) {st : StackId} {p next seen : Nat}
    (ht : s.pc t = .popCas st p next seen) (hhead : s.head st = p)
    (hfew : s.pushes (node p) < seen + 2 ^ 32) :
    ∃ rest, σ st = p :: rest ∧
      Inv { s with
        head := Function.update s.head st next
        held := Function.update s.held t (p :: s.held t)
        pc := Function.update s.pc t .idle } (Function.update σ st rest) := by
  have hpop := h.pops t
  rw [ht] at hpop
  have hchain := h.chain st
  rw [hhead] at hchain
  obtain ⟨rest, hst, hrest⟩ := hchain.of_ne hpop.1.1
  have hmem : p ∈ σ st := hst ▸ List.mem_cons_self
  have hnext : s.next (node p) = next := hpop.2 (h.seen_current ht hmem hfew) hmem
  have hsub : ∀ st', ∀ v ∈ Function.update σ st rest st', v ∈ σ st' := by
    refine (Function.forall_update_iff _ fun st' l => ∀ v ∈ l, v ∈ σ st').mpr
      ⟨fun v hv => hst ▸ List.mem_cons_of_mem _ hv, fun _ _ _ hv => hv⟩
  refine ⟨rest, hst,
    { chain := ?_
      placed := ?_
      proper := h.proper
      unused := h.unused
      inStack := fun st' v hv => h.inStack st' v (hsub st' v hv)
      inHand := ?_
      inPush := ?_
      written := ?_
      pops := ?_ }⟩
  · refine (Function.forall_update_iff _ fun st' l => Chain (fun w => s.next (node w)) 0
      (Function.update s.head st next st') l).mpr ⟨?_, fun st' hst' => ?_⟩
    · rw [Function.update_self, ← hnext]
      exact hrest
    · rw [Function.update_of_ne hst']
      exact h.chain st'
  · refine h.placed.move (p := .stack st) (q := .thread t) (by simp) [node p] ?_ ?_ ?_
    · simp [nodesAt, hst]
    · simp [nodesAt, ht, Pc.pushing]
    · rintro (st' | u) hp hq
      · have hst' : st' ≠ st := fun heq => hp (heq ▸ rfl)
        simp [nodesAt, Function.update_of_ne hst']
      · have hu : u ≠ t := fun hut => hq (hut ▸ rfl)
        simp [nodesAt, Function.update_of_ne hu]
  · refine (Function.forall_update_iff _ fun _ l => ∀ v ∈ l, v < 2 ^ 64 ∧
      high v = s.pushes (node v) % 2 ^ 32).mpr ⟨fun v hv => ?_, fun u _ => h.inHand u⟩
    rcases List.mem_cons.mp hv with rfl | hv
    · exact h.inStack st v hmem
    · exact h.inHand t v hv
  · exact (Function.forall_update_iff _ fun _ q => ∀ v ∈ Pc.pushing q, v < 2 ^ 64 ∧
      high v = (s.pushes (node v) + 1) % 2 ^ 32).mpr
      ⟨fun v hv => by simp [Pc.pushing] at hv, fun u _ => h.inPush u⟩
  · exact (Function.forall_update_iff _ fun _ q => ∀ st value r, q = Pc.pushCas st value r →
      s.next (node value) = r).mpr ⟨(fun _ _ _ hq => nomatch hq), fun u _ => h.written u⟩
  · refine (Function.forall_update_iff _ fun _ q => PopSound _ _ q).mpr
      ⟨trivial, fun u _ => ?_⟩
    exact (h.pops u).mono (fun _ => Nat.le_refl _) fun st' v _ hv => ⟨hsub st' v hv, rfl⟩

/-! ### Every step -/

/-- Every step is allowed by the specification and keeps the invariant. -/
theorem step (h : Inv s σ) {e : Event ι} (hs : Step s e s') (hfew : FewPushes s e) :
    ∃ σ', apply σ e = some σ' ∧ Inv s' σ' := by
  cases hs with
  | create t hpos hlt hnew => exact ⟨σ, rfl, h.create t hpos hlt hnew⟩
  | push t st ht hmem => exact ⟨σ, rfl, h.push t st ht hmem⟩
  | pushLoad t ht =>
      exact ⟨σ, rfl, h.goto t (by simp [ht, Pc.pushing]) (fun _ _ _ hp => nomatch hp) trivial⟩
  | pushWrite t ht => exact ⟨σ, rfl, h.pushWrite t ht⟩
  | pushCas t ht hhead => exact ⟨_, rfl, h.pushCas t ht hhead⟩
  | pushRetry t ht =>
      exact ⟨σ, rfl, h.goto t (by simp [ht, Pc.pushing]) (fun _ _ _ hp => nomatch hp) trivial⟩
  | pop t st ht =>
      exact ⟨σ, rfl, h.goto t (by simp [ht, Pc.pushing]) (fun _ _ _ hp => nomatch hp) trivial⟩
  | @popEmpty t st ht hhead =>
      have hnil : σ st = [] := (h.chain st).eq_nil_iff.mpr hhead
      refine ⟨σ, if_pos hnil, ?_⟩
      exact h.goto t (by simp [ht, Pc.pushing]) (fun _ _ _ hp => nomatch hp) trivial
  | @popLoad t st ht hhead =>
      obtain ⟨rest, hst, _⟩ := (h.chain st).of_ne hhead
      refine ⟨σ, rfl, h.goto t (by simp [ht, Pc.pushing]) (fun _ _ _ hp => nomatch hp) ?_⟩
      exact ⟨hhead, Nat.le_refl _, (h.inStack st _ (hst ▸ List.mem_cons_self)).2⟩
  | popNext t ht =>
      have hpop := h.pops t
      rw [ht] at hpop
      refine ⟨σ, rfl, h.goto t (by simp [ht, Pc.pushing]) (fun _ _ _ hp => nomatch hp) ?_⟩
      exact ⟨hpop, fun _ _ => rfl⟩
  | popCas t ht hhead =>
      obtain ⟨rest, hst, hinv⟩ := h.popCas t ht hhead (hfew _ _ _ _ ht)
      exact ⟨_, by simp [apply, hst], hinv⟩
  | popRetry t ht =>
      exact ⟨σ, rfl, h.goto t (by simp [ht, Pc.pushing]) (fun _ _ _ hp => nomatch hp) trivial⟩

end Inv

/-! ## Every run -/

theorem run_inv {es : List (Event ι)} {s : State ι}
    (h : ((stackSystem ι).when FewPushes).Run es s) : ∃ σ, replay es = some σ ∧ Inv s σ := by
  induction h with
  | start h₀ =>
      obtain ⟨hhead, hcreated, hheld, hpc, hpushes⟩ := h₀
      refine ⟨fun _ => [], rfl, ?_⟩
      exact
        { chain := fun st => by rw [hhead]; exact .nil
          placed :=
            { nodup := fun p => by cases p <;> simp [nodesAt, hpc, hheld, Pc.pushing]
              apart := fun {p q x} hx => by cases p <;> simp [nodesAt, hpc, hheld, Pc.pushing] at hx
              cover := fun x => by
                simp only [hcreated, List.not_mem_nil, false_iff, not_exists]
                intro p
                cases p <;> simp [nodesAt, hpc, hheld, Pc.pushing] }
          proper := fun n hn => by simp [hcreated] at hn
          unused := fun n _ => by rw [hpushes]
          inStack := fun st v hv => absurd hv List.not_mem_nil
          inHand := fun t v hv => by simp [hheld] at hv
          inPush := fun t v hv => by simp [hpc, Pc.pushing] at hv
          written := fun t st v p ht => by simp [hpc] at ht
          pops := fun t => by rw [hpc]; trivial }
  | next _ hs ih =>
      obtain ⟨σ, hσ, hinv⟩ := ih
      obtain ⟨σ', happ, hinv'⟩ := hinv.step hs.1 hs.2
      exact ⟨σ', replay_snoc hσ happ, hinv'⟩

/-- A push that no other thread interrupts. -/
theorem run_push {es : List (Event ι)} {s : State ι} (t : ι) (st : StackId) {value : Nat}
    (h : ((stackSystem ι).when FewPushes).Run es s) (ht : s.pc t = .idle)
    (hvalue : value ∈ s.held t) :
    ((stackSystem ι).when FewPushes).Run
      (es ++ [.tau, .tau, .tau, .pushed t st (nextVersion value)])
      { s with
        head := Function.update s.head st (nextVersion value)
        next := Function.update s.next (node (nextVersion value)) (s.head st)
        held := Function.update s.held t ((s.held t).erase value)
        pushes := Function.update s.pushes (node (nextVersion value))
          (s.pushes (node (nextVersion value)) + 1) } := by
  have loaded := (h.next ⟨.push t st ht hvalue, trivial⟩).next
    ⟨.pushLoad t (Function.update_self ..), trivial⟩
  have run := (loaded.next ⟨.pushWrite t (Function.update_self ..), trivial⟩).next
    ⟨.pushCas t (Function.update_self ..) rfl, trivial⟩
  simp only [State.goto, Function.update_idem, List.append_assoc] at run
  rwa [← ht, Function.update_eq_self] at run

/-- A pop that no other thread interrupts. -/
theorem run_pop {es : List (Event ι)} {s : State ι} (t : ι) (st : StackId) (value : Nat)
    (h : ((stackSystem ι).when FewPushes).Run es s) (ht : s.pc t = .idle)
    (hhead : s.head st = value) (hne : value ≠ 0) :
    ((stackSystem ι).when FewPushes).Run (es ++ [.tau, .tau, .tau, .popped t st value])
      { s with
        head := Function.update s.head st (s.next (node value))
        held := Function.update s.held t (value :: s.held t) } := by
  subst hhead
  have loaded := (h.next ⟨.pop t st ht, trivial⟩).next
    ⟨.popLoad t (Function.update_self ..) hne, trivial⟩
  have run := (loaded.next ⟨.popNext t (Function.update_self ..), trivial⟩).next
    ⟨.popCas t (Function.update_self ..) rfl, fun st' p next seen hp => ?_⟩
  · simp only [State.goto, Function.update_idem, List.append_assoc] at run
    rwa [← ht, Function.update_eq_self] at run
  · cases (Function.update_self ..).symm.trans hp
    exact Nat.lt_add_of_pos_right (by decide)

/-- **The stacks are linearizable, and no node is lost or duplicated.**  For any
threads and any interleaving of pushes and pops on two stacks over one arena: the
history of successful CASes (and of pops that found a stack empty at their load)
replays on a pair of lists, so each pop returned the node on top at its CAS; the chain
from each `head_` is the list it replays to; and every node created so far is in
exactly one of the stacks or owned by exactly one thread, there once. -/
theorem stacks_linearizable {es : List (Event ι)} {s : State ι}
    (h : ((stackSystem ι).when FewPushes).Run es s) :
    ∃ σ, replay es = some σ ∧
      (∀ st, Chain (fun w => s.next (node w)) 0 (s.head st) (σ st)) ∧
      (∀ n ∈ s.created, ∃! pl, n ∈ nodesAt s σ pl) ∧
      ∀ pl, (nodesAt s σ pl).Nodup := by
  obtain ⟨σ, hσ, hinv⟩ := run_inv h
  exact ⟨σ, hσ, hinv.chain, fun n hn => hinv.placed.existsUnique hn, hinv.placed.nodup⟩

/-- Two threads and an ABA: while one pops node 1, with node 2 under it, the other pops both and
pushes node 1 again.  The head is node 1 under another version, so the CAS fails, and the pop takes
node 1 with nothing under it. -/
theorem stacks_linearizable_reused : ∃ (es₁ es : List (Event Bool)) (s₁ s : State Bool),
    ((stackSystem Bool).when FewPushes).Run es₁ s₁ ∧
    s₁.pc false = .popCas .globalObjectGroupStack (bump 1 1) (bump 1 2) 1 ∧
    s₁.head .globalObjectGroupStack = bump 2 1 ∧
    ((stackSystem Bool).when FewPushes).Run es s ∧ es₁ <+: es ∧
    es.getLast? = some (.popped false .globalObjectGroupStack (bump 2 1)) ∧
    ∃ σ, replay es = some σ ∧ σ .globalObjectGroupStack = [] ∧ ∃! pl, 1 ∈ nodesAt s σ pl := by
  have start : ((stackSystem Bool).when FewPushes).Run []
      ⟨fun _ => 0, fun _ => 0, [], fun _ => [], fun _ => .idle, fun _ => 0⟩ :=
    .start ⟨rfl, rfl, rfl, rfl, rfl⟩
  have created := (start.next ⟨.create true (show 0 < 1 by decide) (by decide) (by simp),
    trivial⟩).next ⟨.create true (show 0 < 2 by decide) (by decide) (show 2 ∉ [1] by decide),
    trivial⟩
  have pushed := run_push true .globalObjectGroupStack
    (run_push true .globalObjectGroupStack created rfl (show 2 ∈ [2, 1] by decide)) rfl
    (show 1 ∈ [1] by decide)
  have popping := ((pushed.next ⟨.pop false .globalObjectGroupStack rfl, trivial⟩).next
    ⟨.popLoad false rfl (by decide), trivial⟩).next ⟨.popNext false rfl, trivial⟩
  have popped := run_pop true .globalObjectGroupStack (bump 1 2)
    (run_pop true .globalObjectGroupStack (bump 1 1) popping rfl rfl (by decide)) rfl rfl
    (by decide)
  have reused := run_push true .globalObjectGroupStack popped rfl
    (show bump 1 1 ∈ [bump 1 2, bump 1 1] by decide)
  have again := ((reused.next ⟨.popRetry false rfl, trivial⟩).next
    ⟨.popLoad false rfl (by decide), trivial⟩).next ⟨.popNext false rfl, trivial⟩
  have run := again.next ⟨.popCas false rfl (show _ = bump 2 1 from rfl),
    fun st p next seen hp => by
      cases hp
      decide⟩
  obtain ⟨σ, hσ, hchain, hplaced, -⟩ := stacks_linearizable run
  exact ⟨_, _, _, _, reused, rfl, rfl, run,
    (((List.prefix_append ..).trans (List.prefix_append ..)).trans (List.prefix_append ..)).trans
      (List.prefix_append ..),
    List.getLast?_concat, σ, hσ, (hchain _).eq_nil_iff.mpr rfl,
    hplaced 1 (show 1 ∈ [2, 1] by decide)⟩

end PBase.Stack
