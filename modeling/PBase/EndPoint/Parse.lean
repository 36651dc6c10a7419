/-
# `PBase.EndPoint.Parse` — which texts are an endpoint

`HostPort resolve P s ip port`: the text `s` is whitespace, a host, ':' and a text of the form
`P` with the value `port`; the host has no ':' and starts with no whitespace, and is empty or
resolves to `ip`.  With `PortText`, an integer from 0 to 65535 and whitespace behind it, this is
the grammar.

The loop that looks for something behind the number starts at `++endptr`: it does not look at
the first character there.  So the constructor also accepts `PortSlip`, one character more
between the number and the whitespace (`ofText_iff`).  The texts of the two forms differ, since
`strtol` reads the same number from both and leaves the character in one of them.
-/
import PBase.EndPoint.Model

namespace PBase.EndPoint

open PBase.Lib

/-! ## The forms -/

/-- An integer from 0 to 65535, followed only by whitespace. -/
inductive PortText : List Char → Nat → Prop
  | mk {t space : List Char} {port : Nat} : Numeral t port → port ≤ 65535 →
      (∀ c ∈ space, isspace c) → PortText (t ++ space) port

/-- Another character between the two. -/
inductive PortSlip : List Char → Nat → Prop
  | mk {t space : List Char} {port : Nat} {c : Char} : Numeral t port → port ≤ 65535 →
      isspace c = false → c.isDigit = false → (∀ d ∈ space, isspace d) →
      PortSlip (t ++ c :: space) port

/-- No name is `INADDR_ANY`; a name must resolve. -/
inductive Address (resolve : List Char → Addr) : List Char → Addr → Prop
  | any : Address resolve [] INADDR_ANY
  | host {host : List Char} : host ≠ [] → resolve host ≠ INADDR_NONE →
      Address resolve host (resolve host)

/-- `whitespace* host ':' text` -/
inductive HostPort (resolve : List Char → Addr) (P : List Char → Nat → Prop) :
    List Char → Addr → Nat → Prop
  | mk {space host text : List Char} {ip : Addr} {port : Nat} : (∀ c ∈ space, isspace c) →
      Stops isspace host → ':' ∉ host → Address resolve host ip → P text port →
      HostPort resolve P (space ++ host ++ ':' :: text) ip port

/-! ## The copy loop -/

section Scan
variable {host part text s : List Char}

theorem scan_colon (h : ':' ∉ part) (host text : List Char) :
    scan host (part ++ ':' :: text) =
      (List.range' host.length (part.length + 1), some (host ++ part, text)) := by
  induction part generalizing host with
  | nil => simp [scan]
  | cons c part ih =>
      rw [List.mem_cons, not_or] at h
      rw [List.cons_append, scan, if_neg (Ne.symm h.1), ih h.2]
      simp [List.range'_succ]

theorem scan_end (h : ':' ∉ s) (host : List Char) :
    scan host s = (List.range' host.length s.length, none) := by
  induction s generalizing host with
  | nil => rfl
  | cons c s ih =>
      rw [List.mem_cons, not_or] at h
      rw [scan, if_neg (Ne.symm h.1), ih h.2]
      simp [List.range'_succ]

end Scan

/-- The part before the first ':', behind the leading whitespace; all of the rest without one. -/
def hostPart (s : List Char) : List Char := (s.dropWhile isspace).takeWhile (· ≠ ':')

/-- The leading whitespace, the host and what is behind the ':', if there is one. -/
theorem split_colon {s : List Char} (h : ':' ∈ s) :
    ∃ space host text, s = space ++ host ++ ':' :: text ∧ (∀ c ∈ space, isspace c) ∧
      Stops isspace host ∧ ':' ∉ host := by
  have hmem : ':' ∈ s.dropWhile isspace := by
    rw [← List.takeWhile_append_dropWhile (p := isspace) (l := s), List.mem_append] at h
    refine h.resolve_left fun htake => ?_
    exact absurd (List.mem_takeWhile_imp htake) (by decide)
  obtain ⟨host, text, hsplit, hnot⟩ := List.eq_append_cons_of_mem hmem
  refine ⟨s.takeWhile isspace, host, text, ?_, fun c hc => List.mem_takeWhile_imp hc, ?_, hnot⟩
  · rw [List.append_assoc, ← hsplit, List.takeWhile_append_dropWhile]
  · have hstops := Stops.dropWhile isspace s
    rw [hsplit] at hstops
    cases host with
    | nil => exact .nil
    | cons c host => exact .cons (hstops c rfl)

section Split
variable {space host text : List Char}

theorem dropWhile_split (hspace : ∀ c ∈ space, isspace c) (hhost : Stops isspace host) :
    (space ++ host ++ ':' :: text).dropWhile isspace = host ++ ':' :: text := by
  rw [List.append_assoc]
  refine dropWhile_append_stops hspace ?_
  cases host with
  | nil => exact .cons (by decide)
  | cons c host => exact .cons (hhost c rfl)

theorem hostPart_split (hspace : ∀ c ∈ space, isspace c) (hhost : Stops isspace host)
    (hcolon : ':' ∉ host) : hostPart (space ++ host ++ ':' :: text) = host := by
  rw [hostPart, dropWhile_split hspace hhost]
  refine takeWhile_append_stops (fun c hc => ?_) (.cons (by decide))
  exact decide_eq_true (ne_of_mem_of_not_mem hc hcolon)

end Split

/-- The host is stored from index 0 on, and a NUL behind it if there is a ':'. -/
theorem stores_eq (s : List Char) :
    stores s = List.range ((hostPart s).length + if ':' ∈ s then 1 else 0) := by
  rw [stores, List.range_eq_range']
  split
  · rename_i hmem
    obtain ⟨space, host, text, rfl, hspace, hhost, hcolon⟩ := split_colon hmem
    rw [dropWhile_split hspace hhost, hostPart_split hspace hhost hcolon, scan_colon hcolon]
    rfl
  · rename_i hmem
    have hnot : ':' ∉ s.dropWhile isspace := fun h => hmem ((List.dropWhile_sublist _).mem h)
    have hall : hostPart s = s.dropWhile isspace :=
      List.takeWhile_eq_self_iff.mpr fun c hc => decide_eq_true (ne_of_mem_of_not_mem hc hnot)
    rw [scan_end hnot, hall]
    rfl

theorem stores_lt {s : List Char} (h : (hostPart s).length < 512) : ∀ i ∈ stores s, i < 512 := by
  intro i hi
  rw [stores_eq, List.mem_range] at hi
  split at hi <;> omega

/-- Every store is inside the buffer exactly if the host, and the NUL if there is a ':', fit. -/
theorem stores_inside_iff (s : List Char) :
    (∀ i ∈ stores s, i < 512) ↔
      (hostPart s).length < 512 ∨ (hostPart s).length = 512 ∧ ':' ∉ s := by
  constructor
  · intro h
    simp only [stores_eq, List.mem_range] at h
    split at h
    · exact .inl (h _ (Nat.lt_succ_self _))
    · rcases Nat.lt_trichotomy (hostPart s).length 512 with hlt | heq | hgt
      · exact .inl hlt
      · exact .inr ⟨heq, by assumption⟩
      · exact absurd (h 512 (by omega)) (Nat.lt_irrefl 512)
  · rintro (hlt | ⟨heq, hnot⟩)
    · exact stores_lt hlt
    · rw [stores_eq, heq, if_neg hnot]
      exact fun i hi => List.mem_range.mp hi

theorem stores_name (n : Nat) : stores (List.replicate n 'a' ++ [':']) = List.range (n + 1) := by
  have hnot : ':' ∉ List.replicate n 'a' := fun hmem =>
    absurd (List.eq_of_mem_replicate hmem) (by decide)
  have hstops : Stops isspace (List.replicate n 'a') := by
    cases n with
    | zero => exact .nil
    | succ n => exact .cons (by decide)
  have hpart : hostPart ([] ++ List.replicate n 'a' ++ [':']) = List.replicate n 'a' :=
    hostPart_split (by simp) hstops hnot
  rw [List.nil_append] at hpart
  rw [stores_eq, hpart, if_pos (List.mem_append_right _ List.mem_cons_self), List.length_replicate]

/-- The NUL behind 512 characters is stored at index 512. -/
theorem stores_outside : ¬ ∀ s, ∀ i ∈ stores s, i < 512 := by
  intro h
  have hmem : 512 ∈ stores (List.replicate 512 'a' ++ [':']) := by
    rw [stores_name]
    exact List.mem_range.mpr (Nat.lt_succ_self 512)
  exact absurd (h _ _ hmem) (Nat.lt_irrefl 512)

/-! ## The port -/

theorem clip_eq {n : Nat} (h : n ≤ 65535) : clip n = n := by
  unfold clip
  omega

theorem clip_le {n : Int} (hpos : 0 ≤ clip n) (hle : clip n ≤ 65535) :
    clip n = n ∧ ∃ port : Nat, n = port ∧ port ≤ 65535 := by
  unfold clip at *
  refine ⟨by omega, n.toNat, by omega, by omega⟩

/-- What `strtol` leaves decides. -/
theorem parsePort_of_numeral {t rest : List Char} {port : Nat} (ht : Numeral t port)
    (hport : port ≤ 65535) (hrest : Stops Char.isDigit rest) :
    parsePort (t ++ rest) =
      if rest ≠ [] ∧ rest.tail.dropWhile isspace ≠ [] then none else some port := by
  have hpos := List.length_pos_of_ne_nil ht.ne_nil
  have hne : rest.length ≠ (t ++ rest).length := by
    rw [List.length_append]
    omega
  have hrange : ¬ ((port : Int) < 0 ∨ (port : Int) > 65535) := by omega
  simp only [parsePort, strtol_numeral ht hrest, if_neg hne, clip_eq hport, if_neg hrange,
    Int.toNat_natCast]

theorem stops_of_space {space : List Char} (h : ∀ c ∈ space, isspace c) :
    Stops Char.isDigit space := by
  intro c hc
  by_contra hdigit
  have hspace := h c (List.mem_of_mem_head? hc)
  rw [isspace_of_isDigit (by simpa using hdigit)] at hspace
  cases hspace

/-- The constructor accepts the numbers of the grammar, and those with a character behind. -/
theorem parsePort_iff {s : List Char} {port : Nat} :
    parsePort s = some port ↔ PortText s port ∨ PortSlip s port := by
  constructor
  · intro h
    rcases hstrtol : strtol s with ⟨v, rest⟩
    simp only [parsePort, hstrtol] at h
    split at h
    · cases h
    rename_i hne
    split at h
    · cases h
    rename_i hrest
    split at h
    · cases h
    rename_i hrange
    obtain ⟨t, n, rfl, ht, hstops, rfl⟩ := numeral_of_strtol hstrtol hne
    obtain ⟨hclip, p, rfl, hp⟩ := clip_le (n := n) (by omega) (by omega)
    rw [hclip, Int.toNat_natCast] at h
    cases h
    cases rest with
    | nil => exact .inl (.mk ht hp fun c hc => absurd hc List.not_mem_nil)
    | cons c rest =>
        have hspace : ∀ d ∈ rest, isspace d := by
          refine List.dropWhile_eq_nil_iff.mp ?_
          by_contra hnil
          exact hrest ⟨List.cons_ne_nil c rest, hnil⟩
        cases hc : isspace c with
        | true => exact .inl (.mk ht hp (List.forall_mem_cons.mpr ⟨hc, hspace⟩))
        | false => exact .inr (.mk ht hp hc (hstops c rfl) hspace)
  · rintro (h | h)
    · cases h with
      | @mk t space _ ht hp hspace =>
          rw [parsePort_of_numeral ht hp (stops_of_space hspace), if_neg]
          rintro ⟨-, hdrop⟩
          exact hdrop (List.dropWhile_eq_nil_iff.mpr fun c hc => hspace c (List.mem_of_mem_tail hc))
    · cases h with
      | @mk t space _ c ht hp hc hdigit hspace =>
          rw [parsePort_of_numeral ht hp (.cons hdigit), if_neg]
          rintro ⟨-, hdrop⟩
          exact hdrop (List.dropWhile_eq_nil_iff.mpr hspace)

/-- No text is of both forms. -/
theorem not_slip_of_text {s : List Char} {p q : Nat} (h : PortText s p) : ¬ PortSlip s q := by
  intro hslip
  cases hslip with
  | @mk t' space' _ c ht' hp' hc hdigit hspace' =>
      have hread := strtol_numeral ht' (.cons (s := space') hdigit)
      generalize t' ++ c :: space' = s at h hread
      cases h with
      | mk ht hp hspace =>
          rw [strtol_numeral ht (stops_of_space hspace)] at hread
          obtain ⟨-, rfl⟩ := Prod.mk.inj hread
          rw [hspace c List.mem_cons_self] at hc
          cases hc

/-! ## The constructor -/

section Parse
variable {resolve : List Char → Addr} {P : List Char → Nat → Prop} {s host : List Char} {ip : Addr}
  {port : Nat} {found : Option (List Char × List Char)}

theorem address_iff : Address resolve host ip ↔ ip = address resolve host ∧ ip ≠ INADDR_NONE := by
  constructor
  · intro h
    cases h with
    | any => exact ⟨rfl, by decide⟩
    | host hne hip => exact ⟨(if_pos hne).symm, hip⟩
  · rintro ⟨rfl, hip⟩
    rcases eq_or_ne host [] with rfl | hne
    · exact .any
    · rw [address, if_pos hne] at hip ⊢
      exact .host hne hip

/-- The form in terms of what the copy loop finds. -/
theorem hostPort_iff : HostPort resolve P s ip port ↔ ∃ host text,
    (scan [] (s.dropWhile isspace)).2 = some (host, text) ∧ Address resolve host ip ∧
      P text port := by
  constructor
  · intro h
    cases h with
    | @mk space host text _ _ hspace hhost hcolon hip hport =>
        refine ⟨host, text, ?_, hip, hport⟩
        rw [dropWhile_split hspace hhost, scan_colon hcolon]
        rfl
  · rintro ⟨host, text, hscan, hip, hport⟩
    rcases Classical.em (':' ∈ s) with hmem | hmem
    · obtain ⟨space, host', text', rfl, hspace, hhost, hcolon⟩ := split_colon hmem
      rw [dropWhile_split hspace hhost, scan_colon hcolon] at hscan
      cases hscan
      exact .mk hspace hhost hcolon hip hport
    · rw [scan_end fun h => hmem ((List.dropWhile_sublist _).mem h)] at hscan
      cases hscan

/-- The fields the constructor gives, if the address is one. -/
theorem parse_iff : parse resolve found = (ip, port) ∧ ip ≠ INADDR_NONE ↔ ∃ host text,
    found = some (host, text) ∧ Address resolve host ip ∧ parsePort text = some port := by
  constructor
  · rintro ⟨hparse, hip⟩
    rcases found with - | ⟨host, text⟩
    · cases hparse
      exact absurd rfl hip
    · rw [parse] at hparse
      split at hparse
      · cases hparse
        exact absurd (by assumption) hip
      · split at hparse
        · cases hparse
          exact absurd rfl hip
        · rename_i hport
          cases hparse
          exact ⟨host, text, rfl, address_iff.mpr ⟨rfl, hip⟩, hport⟩
  · rintro ⟨host, text, rfl, haddress, hport⟩
    obtain ⟨rfl, hip⟩ := address_iff.mp haddress
    refine ⟨?_, hip⟩
    simp only [parse, if_neg hip, hport]

end Parse

theorem PortText.le {s : List Char} {port : Nat} (h : PortText s port) : port ≤ 65535 := by
  cases h with
  | mk _ hport _ => exact hport

/-- What the constructor makes of a text. -/
def parsed (resolve : List Char → Addr) (s : List Char) : Addr × Nat :=
  parse resolve (scan [] (s.dropWhile isspace)).2

section Parsed
variable {resolve : List Char → Addr} {s : List Char} {ip : Addr} {port : Nat}

/-- A text is accepted in one of the two forms. -/
theorem parsed_iff : parsed resolve s = (ip, port) ∧ ip ≠ INADDR_NONE ↔
    HostPort resolve PortText s ip port ∨ HostPort resolve PortSlip s ip port := by
  rw [parsed, parse_iff, hostPort_iff, hostPort_iff]
  constructor
  · rintro ⟨host, text, hscan, hip, hport⟩
    rcases parsePort_iff.mp hport with h | h
    · exact .inl ⟨host, text, hscan, hip, h⟩
    · exact .inr ⟨host, text, hscan, hip, h⟩
  · rintro (⟨host, text, hscan, hip, hport⟩ | ⟨host, text, hscan, hip, hport⟩)
    · exact ⟨host, text, hscan, hip, parsePort_iff.mpr (.inl hport)⟩
    · exact ⟨host, text, hscan, hip, parsePort_iff.mpr (.inr hport)⟩

theorem not_slip_of_hostPort {ip' : Addr} {port' : Nat}
    (h : HostPort resolve PortText s ip port) : ¬ HostPort resolve PortSlip s ip' port' := by
  intro hslip
  obtain ⟨host, text, hscan, -, hport⟩ := hostPort_iff.mp h
  obtain ⟨host', text', hscan', -, hport'⟩ := hostPort_iff.mp hslip
  cases hscan.symm.trans hscan'
  exact not_slip_of_text hport hport'

/-- The endpoint, if the host fits the buffer. -/
def built (resolve : List Char → Addr) (storage : EndPoint) (s : List Char) : EndPoint :=
  { storage with ip := (parsed resolve s).1, port := BitVec.ofNat 16 (parsed resolve s).2 }

theorem ofText_eq (storage : EndPoint) (hs : (hostPart s).length < 512) :
    ofText resolve storage s = some (built resolve storage s) := if_pos (stores_lt hs)

theorem built_valid (storage : EndPoint) (h : HostPort resolve PortText s ip port ∨
    HostPort resolve PortSlip s ip port) : (built resolve storage s).valid = true := by
  obtain ⟨hparsed, hip⟩ := parsed_iff.mpr h
  simp only [EndPoint.valid, built, hparsed]
  exact decide_eq_true hip

theorem built_fields (storage : EndPoint) (h : HostPort resolve PortText s ip port) :
    (built resolve storage s).ip = ip ∧ (built resolve storage s).port.toNat = port := by
  obtain ⟨hparsed, -⟩ := parsed_iff.mpr (.inl h)
  have hle : port ≤ 65535 := by
    cases h with
    | mk _ _ _ _ hport => exact hport.le
  simp only [built, hparsed, BitVec.toNat_ofNat, true_and]
  exact Nat.mod_eq_of_lt (by omega)

end Parsed

/-- The text is of the grammar exactly if the endpoint is valid, and then it has the address and
the port of the text. -/
def Reads (resolve : List Char → Addr) (s : List Char) (e : EndPoint) : Prop :=
  (e.valid = true ↔ ∃ ip port, HostPort resolve PortText s ip port) ∧
    ∀ ip port, HostPort resolve PortText s ip port → e.ip = ip ∧ e.port.toNat = port

/-- With a host that fits the buffer, the constructor reads the text as the grammar does, unless
there is one more character behind the number. -/
theorem ofText_iff (resolve : List Char → Addr) (storage : EndPoint) (s : List Char)
    (hs : (hostPart s).length < 512) :
    (∃ e, ofText resolve storage s = some e ∧ Reads resolve s e) ↔
      ¬ ∃ ip port, HostPort resolve PortSlip s ip port := by
  rw [ofText_eq storage hs]
  constructor
  · rintro ⟨e, he, hvalid, -⟩ ⟨ip, port, hslip⟩
    cases he
    obtain ⟨ip', port', htext⟩ := hvalid.mp (built_valid storage (.inr hslip))
    exact not_slip_of_hostPort htext hslip
  · intro hno
    refine ⟨_, rfl, ⟨fun hvalid => ?_, ?_⟩, fun ip port htext => built_fields storage htext⟩
    · rcases parsed_iff.mp ⟨rfl, of_decide_eq_true hvalid⟩ with htext | hslip
      · exact ⟨_, _, htext⟩
      · exact absurd ⟨_, _, hslip⟩ hno
    · rintro ⟨ip, port, htext⟩
      exact built_valid storage (.inl htext)

theorem ofText_iff_name :
    (∃ e, ofText (fun _ => 0x0100007f) ⟨0, 0, 0⟩ ['h', ':', '8', '0'] = some e ∧
      Reads (fun _ => 0x0100007f) ['h', ':', '8', '0'] e) ↔
      ¬ ∃ ip port, HostPort (fun _ => 0x0100007f) PortSlip ['h', ':', '8', '0'] ip port :=
  ofText_iff _ _ _ (by decide)

/-- The endpoint of "h:80x" is valid. -/
theorem ofText_accepts_more : ¬ ∀ (resolve : List Char → Addr) (storage : EndPoint) (s : List Char),
    (hostPart s).length < 512 →
    ∃ e, ofText resolve storage s = some e ∧ Reads resolve s e := by
  intro h
  obtain ⟨e, he, hvalid, -⟩ :=
    h (fun _ => 0x0100007f) ⟨0, 0, 0⟩ ['h', ':', '8', '0', 'x'] (by decide)
  have hdigits : Nat.toDigits 10 80 = ['8', '0'] := by decide
  have hnum : Numeral ['8', '0'] (80 : Nat) := hdigits ▸ numeral_toDigits 80
  have hport : PortSlip (['8', '0'] ++ 'x' :: []) 80 :=
    .mk hnum (by decide) (by decide) (by decide) (by simp)
  have hslip : HostPort (fun _ => 0x0100007f) PortSlip
      ([] ++ ['h'] ++ ':' :: ['8', '0', 'x']) 0x0100007f 80 :=
    .mk (by simp) (.cons (by decide)) (by simp) (.host (by simp) (by decide)) hport
  cases he
  obtain ⟨ip, port, htext⟩ := hvalid.mp (by decide)
  exact not_slip_of_hostPort htext hslip

end PBase.EndPoint
