/-
# `PBase.EndPoint.Format` — an endpoint as text, and back

`endpoint_str` writes the address in dotted decimal, ':' and the port.  A byte has at most three
digits, and the port five, so this takes 21 characters at most.  There is no ':' and no whitespace
in a dotted address and nothing behind the port, so the text is of the grammar `EndPoint(const
char*)` reads, if the dotted address is resolved to the address.
-/
import PBase.EndPoint.Parse

namespace PBase.EndPoint

open PBase.Lib

/-! ## The dotted address -/

theorem not_mem_toDigits {c : Char} (hc : c.isDigit = false) (n : Nat) : c ∉ Nat.toDigits 10 n := by
  intro hmem
  rw [Nat.isDigit_of_mem_toDigits (by decide) (by decide) hmem] at hc
  cases hc

theorem length_byteText (ip : Addr) (i : Nat) : (byteText ip i).length ≤ 3 := by
  refine (Nat.length_toDigits_le_iff (by decide) (by decide)).mpr ?_
  have hlt := (ip.extractLsb' (8 * i) 8).isLt
  omega

theorem length_inetNtop (ip : Addr) : (inetNtop ip).length ≤ 15 := by
  have h := length_byteText ip
  have h0 := h 0
  have h1 := h 1
  have h2 := h 2
  have h3 := h 3
  simp only [inetNtop, List.length_append, List.length_cons]
  omega

theorem colon_not_mem (ip : Addr) : ':' ∉ inetNtop ip := by
  have h : ∀ i, ':' ∉ byteText ip i := fun i => not_mem_toDigits (by decide) _
  simp [inetNtop, h]

/-- A dotted address starts with a digit. -/
theorem stops_inetNtop (ip : Addr) : Stops isspace (inetNtop ip) := by
  have hdigit : ∀ c ∈ byteText ip 0, c.isDigit := fun c hc =>
    Nat.isDigit_of_mem_toDigits (by decide) (by decide) hc
  obtain ⟨c, cs, hcons⟩ : ∃ c cs, byteText ip 0 = c :: cs :=
    List.exists_cons_of_ne_nil Nat.toDigits_ne_nil
  rw [inetNtop, hcons]
  exact .cons (isspace_of_isDigit (hdigit c (hcons ▸ List.mem_cons_self)))

theorem inetNtop_ne_nil (ip : Addr) : inetNtop ip ≠ [] := by
  simp [inetNtop]

/-- An address is its four bytes. -/
theorem eq_of_bytes {ip ip' : Addr}
    (h : ∀ i < 4, ip.extractLsb' (8 * i) 8 = ip'.extractLsb' (8 * i) 8) : ip = ip' := by
  refine BitVec.eq_of_getLsbD_eq fun i hi => ?_
  have hbit := congrArg (BitVec.getLsbD · (i % 8)) (h (i / 8) (by omega))
  simp only [BitVec.getLsbD_extractLsb', Nat.div_add_mod, Nat.mod_lt i (by decide : 8 > 0),
    decide_true, Bool.true_and] at hbit
  exact hbit

theorem toDigits_inj {m n : Nat} (h : Nat.toDigits 10 m = Nat.toDigits 10 n) : m = n := by
  have hvalue := congrArg (Nat.ofDigitChars 10 · 0) h
  simpa only [Nat.ofDigitChars_ten_toDigits] using hvalue

theorem inetNtop_inj {ip ip' : Addr} (h : inetNtop ip = inetNtop ip') : ip = ip' := by
  have hdot : ∀ (ip : Addr) i, '.' ∉ byteText ip i := fun ip i => not_mem_toDigits (by decide) _
  have hbyte : ∀ {i}, byteText ip i = byteText ip' i →
      ip.extractLsb' (8 * i) 8 = ip'.extractLsb' (8 * i) 8 := fun hi =>
    BitVec.eq_of_toNat_eq (toDigits_inj hi)
  obtain ⟨h0, h⟩ := append_sep_inj (hdot ip 0) (hdot ip' 0) h
  obtain ⟨h1, h⟩ := append_sep_inj (hdot ip 1) (hdot ip' 1) h
  obtain ⟨h2, h3⟩ := append_sep_inj (hdot ip 2) (hdot ip' 2) h
  refine eq_of_bytes fun i hi => ?_
  interval_cases i
  · exact hbyte h0
  · exact hbyte h1
  · exact hbyte h2
  · exact hbyte h3

/-! ## The endpoint -/

theorem length_port (e : EndPoint) : (Nat.toDigits 10 e.port.toNat).length ≤ 5 := by
  refine (Nat.length_toDigits_le_iff (by decide) (by decide)).mpr ?_
  have hlt := e.port.isLt
  omega

/-- `snprintf` stores all of the port. -/
theorem endpointStr_eq (e : EndPoint) :
    (endpointStr e).1 = inetNtop e.ip ++ ':' :: Nat.toDigits 10 e.port.toNat := by
  rw [endpointStr, List.take_of_length_le ((length_port e).trans (by decide))]

/-- The text is of the grammar. -/
theorem hostPort_endpointStr {resolve : List Char → Addr} {e : EndPoint}
    (hip : e.ip ≠ INADDR_NONE) (hresolve : resolve (inetNtop e.ip) = e.ip) :
    HostPort resolve PortText ([] ++ inetNtop e.ip ++ ':' :: Nat.toDigits 10 e.port.toNat) e.ip
      e.port.toNat := by
  have hport : PortText (Nat.toDigits 10 e.port.toNat ++ []) e.port.toNat :=
    .mk (numeral_toDigits _) (Nat.le_of_lt_succ e.port.isLt) fun c hc => absurd hc List.not_mem_nil
  have hhost : Address resolve (inetNtop e.ip) (resolve (inetNtop e.ip)) :=
    .host (inetNtop_ne_nil e.ip) (by rwa [hresolve])
  rw [hresolve] at hhost
  rw [List.append_nil] at hport
  exact .mk (fun c hc => absurd hc List.not_mem_nil) (stops_inetNtop e.ip) (colon_not_mem e.ip)
    hhost hport

/-- The text takes 21 characters at most, and their number is returned; read again it gives the
same address and port, if the dotted address is resolved to the address; and no other address or
port has this text. -/
theorem endpointStr_spec (resolve : List Char → Addr) (storage e : EndPoint) :
    ((endpointStr e).1.length ≤ 21 ∧ (endpointStr e).2 = (endpointStr e).1.length) ∧
    (e.ip ≠ INADDR_NONE → resolve (inetNtop e.ip) = e.ip →
      ∃ e', ofText resolve storage (endpointStr e).1 = some e' ∧ e'.valid = true ∧
        e'.ip = e.ip ∧ e'.port = e.port) ∧
    ∀ f, (endpointStr f).1 = (endpointStr e).1 → f.ip = e.ip ∧ f.port = e.port := by
  refine ⟨⟨?_, ?_⟩, fun hip hresolve => ?_, fun f hf => ?_⟩
  · have haddr := length_inetNtop e.ip
    have hport := length_port e
    rw [endpointStr_eq, List.length_append, List.length_cons]
    omega
  · rw [endpointStr_eq, List.length_append, List.length_cons, endpointStr]
    omega
  · have hform := hostPort_endpointStr hip hresolve
    have hpart : hostPart ([] ++ inetNtop e.ip ++ ':' :: Nat.toDigits 10 e.port.toNat) =
        inetNtop e.ip :=
      hostPart_split (fun c hc => absurd hc List.not_mem_nil) (stops_inetNtop e.ip)
        (colon_not_mem e.ip)
    rw [List.nil_append, ← endpointStr_eq] at hform hpart
    obtain ⟨hip', hport'⟩ := built_fields storage hform
    refine ⟨_, ofText_eq storage ?_, built_valid storage (.inl hform), hip', ?_⟩
    · rw [hpart]
      exact (length_inetNtop e.ip).trans_lt (by decide)
    · exact BitVec.eq_of_toNat_eq hport'
  · rw [endpointStr_eq, endpointStr_eq] at hf
    obtain ⟨haddr, hport⟩ := append_sep_inj (colon_not_mem f.ip) (colon_not_mem e.ip) hf
    exact ⟨inetNtop_inj haddr, BitVec.eq_of_toNat_eq (toDigits_inj hport)⟩

theorem endpointStr_spec_loopback :
    ∃ e', ofText
      (fun s => if s = ['1', '2', '7', '.', '0', '.', '0', '.', '1'] then 0x0100007f
        else INADDR_NONE)
      ⟨0, 0, 0⟩ (endpointStr ⟨0x0100007f, 80, 0⟩).1 = some e' ∧ e'.valid = true ∧
      e'.ip = 0x0100007f ∧ e'.port = 80 :=
  (endpointStr_spec _ _ ⟨0x0100007f, 80, 0⟩).2.1 (by decide) (by decide)

end PBase.EndPoint
