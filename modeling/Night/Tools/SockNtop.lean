import Night.Core.Time
import Night.Lib.Memory

/-!
# `night_sock_ntop`

The octets of the address are read through `char *` and printed with `%u`: an octet from 128 on
is extended with its sign first.  `snprintf` gives the length that the whole text has.
-/

namespace Night.SockNtop

open Night.Bytes Night.Time
open Night.Memory (load store load_store store_outside)

/-! ## The functions -/

/-- The bytes at all addresses. -/
abbrev Memory := ℕ → Byte

/-- A `struct sockaddr_in`: the bytes of `sin_addr` and of `sin_port`, in network order. -/
structure SockaddrIn where
  addr0 : Byte
  addr1 : Byte
  addr2 : Byte
  addr3 : Byte
  port0 : Byte
  port1 : Byte

/-- The two bytes of `sin_port` as the machine loads them. -/
def SockaddrIn.sinPort (sin : SockaddrIn) : ℕ := sin.port0.toNat + sin.port1.toNat * 256

/-- `ntohs` exchanges the bytes. -/
def ntohs (netshort : ℕ) : ℕ := netshort % 256 * 256 + netshort / 256

/-- `%u` of a `char`. -/
def unsigned (p : Byte) : List Byte := decimal (p.signExtend 32).toNat

/-- The text of four octets and perhaps a port. -/
def dotted (octet : Byte → List Byte) (port : Option ℕ) (sin : SockaddrIn) : List Byte :=
  octet sin.addr0 ++ literal "." ++ octet sin.addr1 ++ literal "." ++ octet sin.addr2 ++
    literal "." ++ octet sin.addr3 ++ port.elim [] fun n => literal ":" ++ decimal n

/-- `snprintf` with the arguments already formatted: at most `len` bytes are written, the last
one is a NUL, and the length of the whole text is returned. -/
def snprintf (memory : Memory) (text len : ℕ) (formatted : List Byte) : ℕ × Memory :=
  (formatted.length,
    if len = 0 then memory else store memory text (formatted.take (len - 1) ++ [0]))

def nightSockNtop (memory : Memory) (sin : SockaddrIn) (text len : ℕ) (port : Bool) :
    ℕ × Memory :=
  if port then snprintf memory text len (dotted unsigned (some (ntohs sin.sinPort)) sin)
  else snprintf memory text len (dotted unsigned none sin)

/-- `NIGHT_INET_ADDRSTRLEN`, which every listening socket has as `addr_text_max_len`. -/
def nightInetAddrstrlen : ℕ := 15

/-- The part of `night_event_accept` that formats the address of the client: `data` is the
address of the `addr_text_max_len` bytes it has allocated.  It is `addr_text.len`, or nothing
where the connection is closed. -/
def acceptAddrText (memory : Memory) (sin : SockaddrIn) (data : ℕ) : Option ℕ × Memory :=
  let (len, memory) := nightSockNtop memory sin data nightInetAddrstrlen false
  if len = 0 then (none, memory) else (some len, memory)

/-! ## What they are for -/

/-- The dotted-quad text of an address. -/
def SockaddrIn.quad (sin : SockaddrIn) (port : Bool) : List Byte :=
  dotted (fun p => decimal p.toNat)
    (if port then some (sin.port0.toNat * 256 + sin.port1.toNat) else none) sin

/-- The text, cut to what the buffer holds, is in the buffer, nothing outside of it changes, its
length is returned, and the accept path records no more than it has allocated. -/
structure Right (memory : Memory) (sin : SockaddrIn) (text len : ℕ) (port : Bool) : Prop where
  written : 0 < len →
    load (nightSockNtop memory sin text len port).2 text
        (((sin.quad port).take (len - 1)).length + 1) = (sin.quad port).take (len - 1) ++ [0]
  inside : ∀ address, address < text ∨ text + len ≤ address →
    (nightSockNtop memory sin text len port).2 address = memory address
  count : (nightSockNtop memory sin text len port).1 = ((sin.quad port).take (len - 1)).length
  accepted : ∀ data stored, (acceptAddrText memory sin data).1 = some stored →
    stored ≤ nightInetAddrstrlen

/-- The octets that a `char` keeps. -/
def Low (sin : SockaddrIn) : Prop :=
  sin.addr0.toNat < 128 ∧ sin.addr1.toNat < 128 ∧ sin.addr2.toNat < 128 ∧ sin.addr3.toNat < 128

/-! ## The lengths of the texts -/

theorem ntohs_sinPort (sin : SockaddrIn) :
    ntohs sin.sinPort = sin.port0.toNat * 256 + sin.port1.toNat := by
  have hlt := sin.port0.isLt
  rw [ntohs, SockaddrIn.sinPort]
  omega

theorem nightSockNtop_eq (memory : Memory) (sin : SockaddrIn) (text len : ℕ) (port : Bool) :
    nightSockNtop memory sin text len port = snprintf memory text len (dotted unsigned
      (if port then some (sin.port0.toNat * 256 + sin.port1.toNat) else none) sin) := by
  rw [nightSockNtop, ntohs_sinPort]
  cases port <;> rfl

theorem toNat_signExtend (p : Byte) : (p.signExtend 32).toNat =
    if p.toNat < 128 then p.toNat else p.toNat + 4294967040 := by
  revert p
  decide

theorem unsigned_of_lt {p : Byte} (hlow : p.toNat < 128) : unsigned p = decimal p.toNat := by
  rw [unsigned, toNat_signExtend, if_pos hlow]

theorem length_octet_le (p : Byte) : (decimal p.toNat).length ≤ 3 := by
  have hlt := p.isLt
  exact length_decimal_le (by decide) (by omega) (by omega)

/-- The sign makes ten digits. -/
theorem length_unsigned {p : Byte} (hhigh : 128 ≤ p.toNat) : (unsigned p).length = 10 := by
  have hlt := p.isLt
  rw [unsigned, toNat_signExtend, if_neg (by omega)]
  apply le_antisymm
  · exact length_decimal_le (by decide) (by omega) (by omega)
  · by_contra hshort
    have hnine : (Nat.toDigits 10 (p.toNat + 4294967040)).length ≤ 9 := by
      rw [length_decimal_of_nonneg (by omega), Int.natAbs_natCast] at hshort
      omega
    have hsmall := (Nat.length_toDigits_le_iff (by decide) (by decide)).mp hnine
    omega

theorem dotted_of_low {sin : SockaddrIn} (hlow : Low sin) (port : Option ℕ) :
    dotted unsigned port sin = dotted (fun p => decimal p.toNat) port sin := by
  obtain ⟨h0, h1, h2, h3⟩ := hlow
  rw [dotted, unsigned_of_lt h0, unsigned_of_lt h1, unsigned_of_lt h2, unsigned_of_lt h3]
  rfl

theorem length_dotted (octet : Byte → List Byte) (port : Option ℕ) (sin : SockaddrIn) :
    (dotted octet port sin).length = (octet sin.addr0).length + (octet sin.addr1).length +
      (octet sin.addr2).length + (octet sin.addr3).length + 3 +
      (port.elim [] fun n => literal ":" ++ decimal n).length := by
  simp only [dotted, List.length_append, show (literal ".").length = 1 from rfl]
  omega

/-- One octet from 128 on makes the text longer than its dotted quad. -/
theorem low_of_length_le {sin : SockaddrIn} {port : Option ℕ}
    (hle : (dotted unsigned port sin).length ≤
      (dotted (fun p => decimal p.toNat) port sin).length) : Low sin := by
  rw [length_dotted, length_dotted] at hle
  have hoctet (p : Byte) : (p.toNat < 128 ∧ (unsigned p).length = (decimal p.toNat).length) ∨
      (unsigned p).length = 10 := by
    by_cases hlow : p.toNat < 128
    · exact Or.inl ⟨hlow, by rw [unsigned_of_lt hlow]⟩
    · exact Or.inr (length_unsigned (by omega))
  have := length_octet_le sin.addr0
  have := length_octet_le sin.addr1
  have := length_octet_le sin.addr2
  have := length_octet_le sin.addr3
  obtain ⟨h0, h0'⟩ | h0 := hoctet sin.addr0 <;> obtain ⟨h1, h1'⟩ | h1 := hoctet sin.addr1 <;>
    obtain ⟨h2, h2'⟩ | h2 := hoctet sin.addr2 <;> obtain ⟨h3, h3'⟩ | h3 := hoctet sin.addr3 <;>
    first | exact ⟨h0, h1, h2, h3⟩ | omega

theorem acceptAddrText_eq_some {memory : Memory} {sin : SockaddrIn} {data stored : ℕ}
    (hstored : (acceptAddrText memory sin data).1 = some stored) :
    (nightSockNtop memory sin data nightInetAddrstrlen false).1 = stored := by
  rw [acceptAddrText] at hstored
  generalize nightSockNtop memory sin data nightInetAddrstrlen false = result at hstored ⊢
  by_cases hempty : result.1 = 0
  · simp [hempty] at hstored
  · simpa [hempty] using hstored

/-- A dotted quad fits into what the accept path allocates. -/
theorem acceptAddrText_le {sin : SockaddrIn} (hlow : Low sin) {memory : Memory} {data stored : ℕ}
    (hstored : (acceptAddrText memory sin data).1 = some stored) :
    stored ≤ nightInetAddrstrlen := by
  rw [← acceptAddrText_eq_some hstored, nightSockNtop_eq, if_neg (by decide), dotted_of_low hlow]
  change (dotted (fun p => decimal p.toNat) none sin).length ≤ 15
  rw [length_dotted]
  have := length_octet_le sin.addr0
  have := length_octet_le sin.addr1
  have := length_octet_le sin.addr2
  have := length_octet_le sin.addr3
  simp only [Option.elim_none, List.length_nil]
  omega

/-! ## The contract -/

/-- The function is right where no octet is above 127 and the buffer has room for the text and
its NUL. -/
theorem right_iff_low_fits (memory : Memory) (sin : SockaddrIn) (text len : ℕ) (port : Bool) :
    Right memory sin text len port ↔ Low sin ∧ (sin.quad port).length < len := by
  constructor
  · intro hright
    have hcount := hright.count
    rw [nightSockNtop_eq, snprintf, List.length_take] at hcount
    have hlow : Low sin := low_of_length_le (hcount.le.trans (min_le_right ..))
    refine ⟨hlow, ?_⟩
    rw [dotted_of_low hlow] at hcount
    have hquad : (sin.quad port).length = min (len - 1) (sin.quad port).length := hcount
    have hdots : 3 ≤ (sin.quad port).length := by
      rw [SockaddrIn.quad, length_dotted]
      omega
    omega
  · rintro ⟨hlow, hfits⟩
    have htake : (sin.quad port).take (len - 1) = sin.quad port :=
      List.take_of_length_le (by omega)
    have hntop : nightSockNtop memory sin text len port =
        ((sin.quad port).length, store memory text (sin.quad port ++ [0])) := by
      have hlen : len ≠ 0 := by omega
      rw [nightSockNtop_eq, dotted_of_low hlow, ← SockaddrIn.quad, snprintf, if_neg hlen, htake]
    refine ⟨?_, ?_, ?_, fun data stored => acceptAddrText_le hlow⟩
    · intro _
      rw [htake, hntop, show (sin.quad port).length + 1 = (sin.quad port ++ [0]).length by simp]
      exact load_store ..
    · intro address hout
      rw [hntop]
      exact store_outside (by rw [List.length_append, List.length_singleton]; omega)
    · rw [hntop, htake]

/-- `10.0.0.200` in a buffer of 64 bytes. -/
theorem not_right_high : ¬ ∀ (memory : Memory) (sin : SockaddrIn) (text len : ℕ) (port : Bool),
    Right memory sin text len port := by
  intro hall
  have hcount := (hall (fun _ => 0) ⟨10, 0, 0, 200, 0, 80⟩ 0 64 false).count
  exact absurd hcount (by decide)

end Night.SockNtop
