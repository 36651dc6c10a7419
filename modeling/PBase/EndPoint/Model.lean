/-
# `PBase.EndPoint.Model` — an address and a port in eight bytes

    node_    byte 0 … 3     4, 5      6, 7
             ip_            port_     (no name)

`node_` lies over the address, the port and two bytes more.  A constructor that takes an address
or a text gives the fields their values and leaves the two bytes as they are in the memory the
object is built in, here `storage`.  The machine is little-endian.

`EndPoint(const char*)` copies the characters before the first ':' to a buffer of 512 bytes,
resolves them and has `strtol` read the port.  Every index of the buffer it stores to is noted;
with one outside, it does not return.  `resolve` is `hostname2ip`.
-/
import PBase.Lib.CString

namespace PBase

open PBase.Lib

structure EndPoint where
  /-- In network byte order: the first byte is the lowest. -/
  ip : BitVec 32
  port : BitVec 16
  /-- Bytes 6 and 7. -/
  rest : BitVec 16
  deriving DecidableEq

namespace EndPoint

/-- `in_addr_t` -/
abbrev Addr := BitVec 32

def INADDR_NONE : Addr := 0xffffffff
def INADDR_ANY : Addr := 0

def node (e : EndPoint) : BitVec 64 := e.rest ++ e.port ++ e.ip

/-- `operator<` -/
def lt (e f : EndPoint) : Bool := e.node.ult f.node

/-- `operator bool` -/
def valid (e : EndPoint) : Bool := e.ip ≠ INADDR_NONE

def setPort (e : EndPoint) (port : BitVec 16) : EndPoint := { e with port := port }

/-! ## Constructors -/

/-- `EndPoint(uint64_t node)` -/
def ofNode (node : BitVec 64) : EndPoint :=
  { ip := node.extractLsb' 0 32, port := node.extractLsb' 32 16, rest := node.extractLsb' 48 16 }

/-- `EndPoint(in_addr_t ip, unsigned short port)` -/
def ofAddr (storage : EndPoint) (ip : Addr) (port : BitVec 16) : EndPoint :=
  { storage with ip := ip, port := port }

/-- `EndPoint(const char *ip, short port)`; without a name it is `s_local_ip`. -/
def ofName (resolve : List Char → Addr) (localIp : Addr) (storage : EndPoint)
    (ip : Option (List Char)) (port : BitVec 16) : EndPoint :=
  { storage with ip := ip.elim localIp resolve, port := port }

/-- `ntohs` -/
def ntohs (port : BitVec 16) : BitVec 16 := port.extractLsb' 0 8 ++ port.extractLsb' 8 8

/-- `EndPoint(const sockaddr_in*)` -/
def ofSockaddr (storage : EndPoint) (sinAddr : Addr) (sinPort : BitVec 16) : EndPoint :=
  { storage with ip := sinAddr, port := ntohs sinPort }

/-- The loop that copies the host, with `host` in the buffer: the indices it stores to, and if
there is a ':', the host and what is behind it. -/
def scan (host : List Char) : List Char → List Nat × Option (List Char × List Char)
  | [] => ([], none)
  | c :: s =>
      if c = ':' then ([host.length], some (host, s))
      else
        let r := scan (host ++ [c]) s
        (host.length :: r.1, r.2)

/-- The port, read from `port_str` -/
def parsePort (s : List Char) : Option Nat :=
  let r := strtol s
  let port := r.1
  let endptr := r.2
  -- nothing is read if endptr is port_str
  if endptr.length = s.length then none
  else if endptr ≠ [] ∧ endptr.tail.dropWhile isspace ≠ [] then none
  else if port < 0 ∨ port > 65535 then none
  else some port.toNat

/-- The address for the host in the buffer: `buf[0]` is the NUL if nothing was copied. -/
def address (resolve : List Char → Addr) (host : List Char) : Addr :=
  if host ≠ [] then resolve host else INADDR_ANY

/-- What `EndPoint(const char*)` gives the address and the port. -/
def parse (resolve : List Char → Addr) : Option (List Char × List Char) → Addr × Nat
  | none => (INADDR_NONE, 0)
  | some (host, portStr) =>
      let ip := address resolve host
      if ip = INADDR_NONE then (ip, 0)
      else match parsePort portStr with
        | none => (INADDR_NONE, 0)
        | some port => (ip, port)

/-- The indices of `buf` that `EndPoint(const char*)` stores to. -/
def stores (s : List Char) : List Nat := (scan [] (s.dropWhile isspace)).1

/-- `EndPoint(const char *ip_port)` -/
def ofText (resolve : List Char → Addr) (storage : EndPoint) (s : List Char) : Option EndPoint :=
  if ∀ i ∈ stores s, i < 512 then
    let r := parse resolve (scan [] (s.dropWhile isspace)).2
    some { storage with ip := r.1, port := BitVec.ofNat 16 r.2 }
  else none

/-! ## Text -/

/-- A byte of the address, in decimal. -/
def byteText (ip : Addr) (i : Nat) : List Char := Nat.toDigits 10 (ip.extractLsb' (8 * i) 8).toNat

/-- `inet_ntop(AF_INET, …)`: the four bytes of the address. -/
def inetNtop (ip : Addr) : List Char :=
  byteText ip 0 ++ '.' :: (byteText ip 1 ++ '.' :: (byteText ip 2 ++ '.' :: byteText ip 3))

/-- `endpoint_str(buf)`: the text in the buffer, and what is returned.  `snprintf` stores 15
characters at most, and returns how many there are. -/
def endpointStr (e : EndPoint) : List Char × Nat :=
  let ip := inetNtop e.ip
  let port := Nat.toDigits 10 e.port.toNat
  (ip ++ ':' :: port.take 15, ip.length + 1 + port.length)

end EndPoint

end PBase
