/-
# `PBase.EndPoint.Node` — equality of endpoints

`Built storage e`: a constructor that takes an address or a text has made `e` in the memory
`storage`, and `set_port` may have been called since.  None of them writes bytes 6 and 7
(`Built.rest`), and `node()` and `operator<` read them.  So two endpoints with one address and
one port are equal exactly if those bytes were (`node_eq_iff`).
-/
import PBase.EndPoint.Model

namespace PBase.EndPoint

/-! ## The eight bytes -/

theorem ofNode_node (e : EndPoint) : ofNode e.node = e := by
  have hip : e.node.extractLsb' 0 32 = e.ip := BitVec.extractLsb'_append_eq_right
  have hport : e.node.extractLsb' 32 16 = e.port :=
    (BitVec.extractLsb'_append_eq_of_le (by decide)).trans BitVec.extractLsb'_append_eq_right
  have hrest : e.node.extractLsb' 48 16 = e.rest :=
    (BitVec.extractLsb'_append_eq_of_le (by decide)).trans BitVec.extractLsb'_append_eq_left
  rw [ofNode, hip, hport, hrest]

theorem node_inj {e f : EndPoint} : e.node = f.node ↔ e = f := by
  constructor
  · intro h
    rw [← ofNode_node e, h, ofNode_node]
  · rintro rfl
    rfl

theorem lt_irrefl (e : EndPoint) : e.lt e = false := by
  simp [lt, BitVec.ult]

/-! ## Construction -/

/-- An endpoint built in the memory `storage`. -/
inductive Built (storage : EndPoint) : EndPoint → Prop
  | ofText {resolve : List Char → Addr} {s : List Char} {e : EndPoint} :
      ofText resolve storage s = some e → Built storage e
  | ofName (resolve : List Char → Addr) (localIp : Addr) (ip : Option (List Char))
      (port : BitVec 16) : Built storage (ofName resolve localIp storage ip port)
  | ofAddr (ip : Addr) (port : BitVec 16) : Built storage (ofAddr storage ip port)
  | ofSockaddr (sinAddr : Addr) (sinPort : BitVec 16) :
      Built storage (ofSockaddr storage sinAddr sinPort)
  | setPort {e : EndPoint} (port : BitVec 16) : Built storage e → Built storage (e.setPort port)

/-- The two bytes without a name are as they were. -/
theorem Built.rest {storage e : EndPoint} (h : Built storage e) : e.rest = storage.rest := by
  induction h with
  | ofText htext =>
      rw [EndPoint.ofText] at htext
      split at htext
      · cases htext
        rfl
      · cases htext
  | ofName => rfl
  | ofAddr => rfl
  | ofSockaddr => rfl
  | setPort _ _ ih => exact ih

/-- Endpoints with one address and one port are equal exactly if the two bytes were, in the memory
they are built in.  `node()` always keeps the address and the port. -/
theorem node_eq_iff {storage storage' e f : EndPoint} (he : Built storage e)
    (hf : Built storage' f) (hip : e.ip = f.ip) (hport : e.port = f.port) :
    (e.node = f.node ∧ e.lt f = false ∧ f.lt e = false ∧
      (ofNode e.node).ip = e.ip ∧ (ofNode e.node).port = e.port) ↔
      storage.rest = storage'.rest := by
  rw [← he.rest, ← hf.rest]
  constructor
  · rintro ⟨hnode, -⟩
    rw [node_inj.mp hnode]
  · intro hrest
    obtain rfl : e = f := by
      cases e
      cases f
      congr
    rw [ofNode_node]
    exact ⟨rfl, lt_irrefl e, lt_irrefl e, rfl, rfl⟩

theorem node_eq_iff_loopback :
    ((ofAddr ⟨0, 0, 7⟩ 0x0100007f 80).node = (ofAddr ⟨1, 2, 7⟩ 0x0100007f 80).node ∧
      (ofAddr ⟨0, 0, 7⟩ 0x0100007f 80).lt (ofAddr ⟨1, 2, 7⟩ 0x0100007f 80) = false ∧
      (ofAddr ⟨1, 2, 7⟩ 0x0100007f 80).lt (ofAddr ⟨0, 0, 7⟩ 0x0100007f 80) = false ∧
      (ofNode (ofAddr ⟨0, 0, 7⟩ 0x0100007f 80).node).ip = (ofAddr ⟨0, 0, 7⟩ 0x0100007f 80).ip ∧
      (ofNode (ofAddr ⟨0, 0, 7⟩ 0x0100007f 80).node).port =
        (ofAddr ⟨0, 0, 7⟩ 0x0100007f 80).port) ↔
      EndPoint.rest ⟨0, 0, 7⟩ = EndPoint.rest ⟨1, 2, 7⟩ :=
  node_eq_iff (.ofAddr _ _) (.ofAddr _ _) rfl rfl

/-- In memory that differs, the same address and port give two endpoints. -/
theorem node_differs : ¬ ∀ storage storage' e f : EndPoint, Built storage e → Built storage' f →
    e.ip = f.ip → e.port = f.port →
    e.node = f.node ∧ e.lt f = false ∧ f.lt e = false ∧
      (ofNode e.node).ip = e.ip ∧ (ofNode e.node).port = e.port := by
  intro h
  obtain ⟨hnode, -⟩ :=
    h ⟨0, 0, 0⟩ ⟨0, 0, 7⟩ _ _ (.ofAddr 0x0100007f 80) (.ofAddr 0x0100007f 80) rfl rfl
  exact absurd hnode (by decide)

end PBase.EndPoint
