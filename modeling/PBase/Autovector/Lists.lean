/-
# `PBase.Autovector.Lists` — `autovector` is a list

Whatever is called on any number of vectors, each has the items of a list on which the same is
called (`lists`), in the array or not, and the loops over its iterators visit them in order. 
`resize` keeps the items there are room for and says nothing of those it adds.  `only_in_stack` has
a memory: it is true until there are more than `kSize` items, and false from then on.
-/
import PBase.Autovector.Model

namespace PBase.Autovector

open PBase.Lib

/-! ## The items -/

namespace AutoVector
variable {α : Type*} {kSize : Nat} {v v' other : AutoVector α kSize} {n : Nat} {item : α}

def items (v : AutoVector α kSize) : List α := v.values.toList.take v.numStackItems ++ v.vect

theorem length_stack (v : AutoVector α kSize) :
    (v.values.toList.take v.numStackItems).length = v.numStackItems := by
  rw [List.length_take, Vector.length_toList]
  exact Nat.min_eq_left v.le

@[simp] theorem length_items (v : AutoVector α kSize) : v.items.length = v.size := by
  rw [items, List.length_append, length_stack, size]

/-- Something is in `vect_` if the items do not fit the array. -/
theorem vect_ne_nil : v.vect ≠ [] ↔ kSize < v.size := by
  have hle := v.le
  refine ⟨fun hne => ?_, fun hlt hnil => ?_⟩
  · have hpos := List.length_pos_of_ne_nil hne
    rw [size, v.full hne]
    omega
  · rw [size, hnil, List.length_nil] at hlt
    omega

/-- An index of an item is one of the array below `num_stack_items_`, and one of `vect_` from
`kSize` on. -/
theorem index_cases (hn : n < v.size) : n < kSize ∧ n < v.numStackItems ∨
    kSize ≤ n ∧ v.numStackItems = kSize ∧ n - kSize < v.vect.length := by
  have hle := v.le
  rcases Nat.lt_or_ge n v.numStackItems with hlt | hge
  · exact .inl ⟨hlt.trans_le hle, hlt⟩
  · have hne : v.vect ≠ [] := fun hnil => by
      rw [size, hnil, List.length_nil] at hn
      omega
    have hfull := v.full hne
    rw [size, hfull] at hn
    exact .inr ⟨by omega, hfull, by omega⟩

theorem get_eq (v : AutoVector α kSize) (n : Nat) : v.get n = v.items[n]? := by
  unfold get
  split
  · rename_i hn
    rcases index_cases hn with ⟨hlt, hnum⟩ | ⟨hge, hfull, hlen⟩
    · have hstack : n < (v.values.toList.take v.numStackItems).length := by rwa [length_stack]
      rw [dif_pos hlt, items, List.getElem?_append_left hstack, List.getElem?_take_of_lt hnum]
      simp [hlt]
    · rw [dif_neg (Nat.not_lt.mpr hge), items,
        List.getElem?_append_right (by rw [length_stack]; omega), length_stack,
        hfull]
  · rename_i hn
    rw [List.getElem?_eq_none (by rw [length_items]; omega)]

/-- A list with one more of its items set. -/
theorem take_set_succ {l : List α} (hn : n < l.length) :
    (l.set n item).take (n + 1) = l.take n ++ [item] := by
  rw [List.take_add_one, List.take_set_of_le (Nat.le_refl n), List.getElem?_set_self hn]
  rfl

theorem items_pushBack (v : AutoVector α kSize) (item : α) :
    (v.pushBack item).items = v.items ++ [item] := by
  unfold pushBack
  split
  · rename_i hlt
    have hnil : v.vect = [] := by
      by_contra hne
      exact absurd (v.full hne) (Nat.ne_of_lt hlt)
    simp only [items, hnil, List.append_nil, Vector.toList_set]
    exact take_set_succ (by rwa [Vector.length_toList])
  · simp only [items, List.append_assoc]

theorem items_popBack (h : v.popBack = some v') : v.items ≠ [] ∧ v'.items = v.items.dropLast := by
  unfold popBack at h
  split at h
  · rename_i hempty
    have hsize : v.size ≠ 0 := by simpa [empty] using hempty
    refine ⟨fun hnil => hsize (by rw [← length_items, hnil]; rfl), ?_⟩
    split at h
    · rename_i hne
      cases h
      rw [items, items, List.dropLast_append_of_ne_nil hne]
    · rename_i hne
      cases h
      have hnil : v.vect = [] := not_not.mp hne
      simp only [items, hnil, List.append_nil]
      rw [List.dropLast_eq_take, length_stack, List.take_take, Nat.min_eq_left (Nat.sub_le _ _)]
  · cases h

theorem items_set (h : v.set n item = some v') : n < v.items.length ∧
    v'.items = v.items.set n item := by
  unfold set at h
  split at h
  · rename_i hn
    refine ⟨by rwa [length_items], ?_⟩
    rcases index_cases hn with ⟨hlt, hnum⟩ | ⟨hge, hfull, hlen⟩
    · rw [dif_pos hlt] at h
      cases h
      have hstack : n < (v.values.toList.take v.numStackItems).length := by rwa [length_stack]
      simp only [items, Vector.toList_set, List.take_set, List.set_append_left _ _ hstack]
    · rw [dif_neg (Nat.not_lt.mpr hge)] at h
      cases h
      simp only [items]
      rw [List.set_append_right _ _ (by rw [length_stack]; omega), length_stack, hfull]
  · cases h

theorem items_assign (v other : AutoVector α kSize) : (v.assign other).items = other.items := by
  unfold assign items
  congr 1
  refine List.ext_getElem (by simp) fun i h₁ h₂ => ?_
  have hi : i < other.numStackItems := by
    rw [List.length_take] at h₂
    omega
  simp [hi]

theorem size_resize [Inhabited α] (v : AutoVector α kSize) (n : Nat) : (v.resize n).size = n := by
  unfold resize
  split
  · rename_i hlt
    simp only [size, List.length_append, List.length_take, List.length_replicate]
    omega
  · rfl

/-- The items there are room for stay. -/
theorem get_resize [Inhabited α] {i : Nat} (hi : i < v.size) (hn : i < n) :
    (v.resize n).get i = v.get i := by
  have hi' : i < (v.resize n).size := by rwa [size_resize]
  rw [get, get, if_pos hi, if_pos hi']
  rcases index_cases hi with ⟨hlt, -⟩ | ⟨hge, -, hlen⟩
  · rw [dif_pos hlt, dif_pos hlt]
    unfold resize
    split <;> rfl
  · rw [dif_neg (Nat.not_lt.mpr hge), dif_neg (Nat.not_lt.mpr hge)]
    unfold resize
    rw [dif_pos (by omega)]
    have hkept : i - kSize < (v.vect.take (n - kSize)).length := by
      rw [List.length_take]
      omega
    rw [List.getElem?_append_left hkept, List.getElem?_take_of_lt (by omega)]

theorem items_resize [Inhabited α] (v : AutoVector α kSize) (n : Nat) :
    (v.resize n).items.length = n ∧ (v.resize n).items.take v.items.length = v.items.take n := by
  refine ⟨by rw [length_items, size_resize], List.ext_getElem? fun i => ?_⟩
  rw [List.getElem?_take, List.getElem?_take, ← get_eq, ← get_eq, length_items]
  rcases Nat.lt_or_ge i v.size with hi | hi
  · rcases Nat.lt_or_ge i n with hn | hn
    · rw [if_pos hi, if_pos hn, get_resize hi hn]
    · rw [if_pos hi, if_neg (Nat.not_lt.mpr hn), get, if_neg (by rw [size_resize]; omega)]
  · rw [if_neg (Nat.not_lt.mpr hi), get, if_neg (Nat.not_lt.mpr hi)]
    split <;> rfl

/-! ### Reading -/

theorem empty_eq (v : AutoVector α kSize) : v.empty = v.items.isEmpty := by
  rw [empty, ← length_items]
  cases v.items <;> rfl

theorem deref_eq (v : AutoVector α kSize) (n : Nat) : v.deref n = v.items[n]? := by
  unfold deref
  split
  · exact get_eq v n
  · rename_i hlt
    rw [List.getElem?_eq_none (by rw [length_items]; omega)]

theorem front_eq (v : AutoVector α kSize) : v.front = v.items.head? := by
  rw [front, empty_eq, deref_eq]
  cases v.items <;> rfl

theorem back_eq (v : AutoVector α kSize) : v.back = v.items.getLast? := by
  rw [back, empty_eq, deref_eq, List.getLast?_eq_getElem?, length_items]
  cases hitems : v.items <;> rfl

/-- A loop, if what it visits is known one by one. -/
theorem mapM_eq_some {β : Type*} {f : β → Option α} {is : List β} {l : List α}
    (h : is.map f = l.map some) :
    is.mapM f = some l := by
  induction is generalizing l with
  | nil =>
      cases l with
      | nil => rfl
      | cons _ _ => cases h
  | cons i is ih =>
      cases l with
      | nil => cases h
      | cons x l =>
          rw [List.map_cons, List.map_cons, List.cons.injEq] at h
          rw [List.mapM_cons, h.1, ih h.2]
          rfl

theorem forward_eq (v : AutoVector α kSize) : v.forward = some v.items := by
  refine mapM_eq_some (List.ext_getElem (by simp) fun i h₁ h₂ => ?_)
  rw [List.length_map] at h₂
  rw [List.getElem_map, List.getElem_range, deref_eq, List.getElem_map, List.getElem?_eq_getElem h₂]

theorem backward_eq (v : AutoVector α kSize) : v.backward = some v.items.reverse := by
  refine mapM_eq_some (List.ext_getElem (by simp) fun i h₁ h₂ => ?_)
  rw [List.length_map, List.length_reverse] at h₂
  rw [List.getElem_map, List.getElem_map, List.getElem_range, deref_eq, List.getElem_map,
      List.getElem_reverse,
    ← length_items, List.getElem?_eq_getElem (by omega)]
  congr 2
  omega

end AutoVector

/-! ## The lists -/

/-- The items, and the most there were since the construction. -/
structure Items (α : Type*) where
  list : List α
  most : Nat

def Items.become {α : Type*} (q : Items α) (l : List α) : Items α := ⟨l, max q.most l.length⟩

section
variable {ι α : Type*} {kSize : Nat} [DecidableEq ι]

def lists (ι α : Type*) (kSize : Nat) [DecidableEq ι] : System (ι → Items α) (Event ι α) where
  init q := q = fun _ => ⟨[], 0⟩
  step q e q' :=
    match e with
    | .construct i => q' = Function.update q i ⟨[], 0⟩
    | .copy i j => i ≠ j ∧ q' = Function.update q i ⟨(q j).list, (q j).list.length⟩
    | .assign i j => i ≠ j ∧ q' = Function.update q i ((q i).become (q j).list)
    | .pushBack i item => q' = Function.update q i ((q i).become ((q i).list ++ [item]))
    | .popBack i => (q i).list ≠ [] ∧ q' = Function.update q i ((q i).become (q i).list.dropLast)
    | .resize i n => ∃ l, l.length = n ∧ l.take (q i).list.length = (q i).list.take n ∧
        q' = Function.update q i ((q i).become l)
    | .clear i => q' = Function.update q i ((q i).become [])
    | .set i n item => n < (q i).list.length ∧
        q' = Function.update q i ((q i).become ((q i).list.set n item))
    | .get i n item => (q i).list[n]? = some item ∧ q' = q
    | .front i item => (q i).list.head? = some item ∧ q' = q
    | .back i item => (q i).list.getLast? = some item ∧ q' = q
    | .size i n => n = (q i).list.length ∧ q' = q
    | .empty i result => result = (q i).list.isEmpty ∧ q' = q
    | .onlyInStack i result => result = decide ((q i).most ≤ kSize) ∧ q' = q
    | .forward i items => items = (q i).list ∧ q' = q
    | .backward i items => items = (q i).list.reverse ∧ q' = q

/-- The vector holds the list, and `vect_` was used if there were ever too many items for the array.
-/
structure Holds (v : AutoVector α kSize) (q : Items α) : Prop where
  items : v.items = q.list
  grown : v.grown = true ↔ kSize < q.most

variable {v v' other : AutoVector α kSize} {q q' : Items α} {l : List α} {n : Nat}

omit [DecidableEq ι]

theorem Holds.new (values : Vector α kSize) : Holds (.new values) ⟨[], 0⟩ :=
    ⟨rfl, by simp [AutoVector.new]⟩

/-- A call that makes these the items, and uses `vect_` if they are too many for the array. -/
theorem Holds.become (h : Holds v q) (hitems : v'.items = l)
    (hgrown : v'.grown = true ↔ v.grown = true ∨ kSize < v'.size) : Holds v' (q.become l) := by
  refine ⟨hitems, ?_⟩
  rw [hgrown, h.grown, Items.become, lt_max_iff, ← hitems, AutoVector.length_items]

/-- There is nothing in `vect_` that it was not used for. -/
theorem grown_iff (hsame : v'.grown = v.grown) (hle : v'.size ≤ v.size) :
    v'.grown = true ↔ v.grown = true ∨ kSize < v'.size := by
  rw [hsame]
  refine ⟨.inl, fun h => h.elim id fun hlt => ?_⟩
  exact v.room (AutoVector.vect_ne_nil.mpr (hlt.trans_le hle))

theorem Holds.pushBack (h : Holds v q) (item : α) :
    Holds (v.pushBack item) (q.become (q.list ++ [item])) := by
  refine h.become (by rw [AutoVector.items_pushBack, h.items]) ?_
  have hsize : (v.pushBack item).size = v.size + 1 := by
    rw [← AutoVector.length_items, AutoVector.items_pushBack, List.length_append,
        AutoVector.length_items]
    rfl
  rw [hsize]
  have hle := v.le
  have hrefl : v.size = v.numStackItems + v.vect.length := rfl
  unfold AutoVector.pushBack
  split
  · rename_i hlt
    have hnil : v.vect = [] := by
      by_contra hne
      exact absurd (v.full hne) (Nat.ne_of_lt hlt)
    refine ⟨.inl, fun h => h.elim id fun hover => ?_⟩
    rw [hrefl, hnil, List.length_nil] at hover
    omega
  · rename_i hge
    exact ⟨fun _ => .inr (by omega), fun _ => rfl⟩

theorem Holds.resize [Inhabited α] (h : Holds v q) (n : Nat) :
    Holds (v.resize n) (q.become (v.resize n).items) := by
  refine h.become rfl ?_
  rw [AutoVector.size_resize]
  unfold AutoVector.resize
  split
  · rename_i hlt
    exact ⟨fun _ => .inr hlt, fun _ => rfl⟩
  · rename_i hge
    exact ⟨.inl, fun h => h.elim id fun hlt => absurd hlt hge⟩

theorem Holds.assign (h : Holds v q) (h' : Holds other q') :
    Holds (v.assign other) (q.become q'.list) := by
  refine h.become (by rw [AutoVector.items_assign, h'.items]) ?_
  have hsize : (v.assign other).size = other.size := rfl
  rw [hsize, ← AutoVector.vect_ne_nil, AutoVector.assign, Bool.or_eq_true, Bool.not_eq_true',
    ← Bool.not_eq_true, List.isEmpty_iff]

theorem Holds.popBack (h : Holds v q) (hpop : v.popBack = some v') :
    q.list ≠ [] ∧ Holds v' (q.become q.list.dropLast) := by
  obtain ⟨hne, hitems⟩ := AutoVector.items_popBack hpop
  rw [h.items] at hne hitems
  refine ⟨hne, h.become hitems (grown_iff ?_ ?_)⟩
  · unfold AutoVector.popBack at hpop
    split at hpop
    · split at hpop <;> cases hpop <;> rfl
    · cases hpop
  · rw [← AutoVector.length_items, ← AutoVector.length_items, hitems, h.items, List.length_dropLast]
    exact Nat.sub_le _ _

theorem Holds.set {item : α} (h : Holds v q) (hset : v.set n item = some v') :
    n < q.list.length ∧ Holds v' (q.become (q.list.set n item)) := by
  obtain ⟨hlt, hitems⟩ := AutoVector.items_set hset
  rw [h.items] at hlt hitems
  refine ⟨hlt, h.become hitems (grown_iff ?_ ?_)⟩
  · unfold AutoVector.set at hset
    split at hset
    · split at hset <;> cases hset <;> rfl
    · cases hset
  · rw [← AutoVector.length_items, ← AutoVector.length_items, hitems, h.items, List.length_set]

theorem Holds.clear (h : Holds v q) : Holds v.clear (q.become []) :=
  h.become rfl (grown_iff rfl (Nat.zero_le _))

variable [DecidableEq ι] [Inhabited α] {s s' : ι → AutoVector α kSize} {Q : ι → Items α}
  {e : Event ι α}
  {es : List (Event ι α)}

omit [Inhabited α] in
theorem holds_update (h : ∀ i, Holds (s i) (Q i)) (i : ι) (hv : Holds v q) (k : ι) :
    Holds (Function.update s i v k) (Function.update Q i q k) := by
  rcases eq_or_ne k i with rfl | hk
  · rw [Function.update_self, Function.update_self]
    exact hv
  · rw [Function.update_of_ne hk, Function.update_of_ne hk]
    exact h k

/-- A call does the same to the vectors and to the lists. -/
theorem step_lists (h : ∀ i, Holds (s i) (Q i)) (hs : Step s e s') :
    ∃ Q', (lists ι α kSize).step Q e Q' ∧ ∀ i, Holds (s' i) (Q' i) := by
  cases hs with
  | @construct i values => exact ⟨_, rfl, holds_update h i (.new values)⟩
  | @copy i j values hij =>
      have hcopy := (Holds.new values).assign (h j)
      rw [Items.become, Nat.zero_max] at hcopy
      exact ⟨_, ⟨hij, rfl⟩, holds_update h i hcopy⟩
  | @assign i j hij => exact ⟨_, ⟨hij, rfl⟩, holds_update h i ((h i).assign (h j))⟩
  | @pushBack i item => exact ⟨_, rfl, holds_update h i ((h i).pushBack item)⟩
  | @popBack i v hpop =>
      obtain ⟨hne, hv⟩ := (h i).popBack hpop
      exact ⟨_, ⟨hne, rfl⟩, holds_update h i hv⟩
  | @resize i n =>
      obtain ⟨hlen, hkept⟩ := (s i).items_resize n
      rw [(h i).items] at hkept
      exact ⟨_, ⟨_, hlen, hkept, rfl⟩, holds_update h i ((h i).resize n)⟩
  | @clear i => exact ⟨_, rfl, holds_update h i (h i).clear⟩
  | @set i n item v hset =>
      obtain ⟨hlt, hv⟩ := (h i).set hset
      exact ⟨_, ⟨hlt, rfl⟩, holds_update h i hv⟩
  | @get i n item hget => exact ⟨Q, ⟨by rw [← (h i).items, ← AutoVector.get_eq, hget], rfl⟩, h⟩
  | @front i item hfront =>
      exact ⟨Q, ⟨by rw [← (h i).items, ← AutoVector.front_eq, hfront], rfl⟩, h⟩
  | @back i item hback => exact ⟨Q, ⟨by rw [← (h i).items, ← AutoVector.back_eq, hback], rfl⟩, h⟩
  | @size i => exact ⟨Q, ⟨by rw [← (h i).items, AutoVector.length_items], rfl⟩, h⟩
  | @empty i => exact ⟨Q, ⟨by rw [← (h i).items, AutoVector.empty_eq], rfl⟩, h⟩
  | @onlyInStack i =>
      refine ⟨Q, ⟨?_, rfl⟩, h⟩
      have hgrown := (h i).grown
      rw [AutoVector.onlyInStack]
      cases hg : (s i).grown
      · rw [hg] at hgrown
        simpa using hgrown
      · rw [hg] at hgrown
        simpa using hgrown
  | @forward i items hitems =>
      rw [AutoVector.forward_eq, (h i).items] at hitems
      exact ⟨Q, ⟨(Option.some.inj hitems).symm, rfl⟩, h⟩
  | @backward i items hitems =>
      rw [AutoVector.backward_eq, (h i).items] at hitems
      exact ⟨Q, ⟨(Option.some.inj hitems).symm, rfl⟩, h⟩

/-- The calls that check something return if there is the item they are about. -/
structure Returning (s : ι → AutoVector α kSize) : Prop where
  popBack : ∀ i, (s i).items ≠ [] → ∃ s', Step s (.popBack i) s'
  set : ∀ i n item, n < (s i).items.length → ∃ s', Step s (.set i n item) s'
  get : ∀ i n, n < (s i).items.length → ∃ item, Step s (.get i n item) s
  front : ∀ i, (s i).items ≠ [] → ∃ item, Step s (.front i item) s
  back : ∀ i, (s i).items ≠ [] → ∃ item, Step s (.back i item) s
  forward : ∀ i, ∃ items, Step s (.forward i items) s
  backward : ∀ i, ∃ items, Step s (.backward i items) s

theorem returning (s : ι → AutoVector α kSize) : Returning s where
  popBack i hne := by
    have hempty : (s i).empty = false := by
      rw [AutoVector.empty_eq]
      exact List.isEmpty_eq_false_iff.mpr hne
    by_cases hvect : (s i).vect ≠ []
    · exact ⟨_, .popBack (by rw [AutoVector.popBack, hempty, dif_pos hvect]; rfl)⟩
    · exact ⟨_, .popBack (by rw [AutoVector.popBack, hempty, dif_neg hvect]; rfl)⟩
  set i n item hn := by
    rw [AutoVector.length_items] at hn
    by_cases hlt : n < kSize
    · exact ⟨_, .set (by rw [AutoVector.set, if_pos hn, dif_pos hlt])⟩
    · exact ⟨_, .set (by rw [AutoVector.set, if_pos hn, dif_neg hlt])⟩
  get i n hn := ⟨_, .get (by rw [AutoVector.get_eq, List.getElem?_eq_getElem hn])⟩
  front i hne := ⟨_, .front (by rw [AutoVector.front_eq, List.head?_eq_some_head hne])⟩
  back i hne := ⟨_, .back (by rw [AutoVector.back_eq, List.getLast?_eq_some_getLast hne])⟩
  forward i := ⟨_, .forward (AutoVector.forward_eq _)⟩
  backward i := ⟨_, .backward (AutoVector.backward_eq _)⟩

/-- **An `autovector` is a list.**  In every run of calls on any number of vectors each call has the
result that the same calls have on lists, and the loops over the iterators visit the items in order;
`only_in_stack` says whether there were never more than `kSize` items.  The calls that check for an
item return if it is there. -/
theorem vectors_are_lists (h : (vectors ι α kSize).Run es s) :
    (∃ Q, (lists ι α kSize).Run es Q ∧ ∀ i, (s i).items = (Q i).list) ∧ Returning s := by
  obtain ⟨Q, hrun, hQ⟩ := h.refines (T := lists ι α kSize) (R := fun s Q => ∀ i, Holds (s i) (Q i))
    (fun s h₀ => ⟨_, rfl, fun i => by
      obtain ⟨values, hnew⟩ := h₀ i
      rw [hnew]
      exact .new values⟩)
    fun s e s' Q hR hs => step_lists (s := s) (Q := Q) hR hs
  exact ⟨⟨Q, hrun, fun i => (hQ i).items⟩, returning s⟩

/-- Two items where there is room for one in the array, and both are visited. -/
theorem vectors_are_lists_two : ∃ Q : Unit → Items Nat,
    (lists Unit Nat 1).Run [.pushBack () 3, .pushBack () 4, .forward () [3, 4],
      .onlyInStack () false] Q := by
  have start : (vectors Unit Nat 1).Run [] fun _ => .new #v[0] := .start fun _ => ⟨_, rfl⟩
  have pushed : (vectors Unit Nat 1).Run [.pushBack () 3, .pushBack () 4] _ :=
      (start.next .pushBack).next .pushBack
  have visited : (vectors Unit Nat 1).Run [.pushBack () 3, .pushBack () 4, .forward () [3, 4]] _ :=
    pushed.next (.forward (by decide))
  have run := visited.next (.onlyInStack (i := ()))
  obtain ⟨Q, hQ, -⟩ := (vectors_are_lists run).1
  exact ⟨Q, hQ⟩

end

end PBase.Autovector
