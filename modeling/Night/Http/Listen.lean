import Night.Core.DecimalText
import Night.Tools.SockNtop

/-!
# The ports of the servers

The `listen` directives of all servers fill one array of ports, each of which may be there once;
`night_http_optimize_servers` makes the listening entries of them.
-/

namespace Night.Listen

open Night.Atoi Night.Bytes Night.SockNtop
open Night.DecimalText (decimal_inj)
open Night.Memory (load load_part load_store store)
open Night.Time (decimal length_decimal_le literal)

/-! ## The source -/

inductive Rc where
  | ok
  | error
  deriving DecidableEq, Repr

/-- `AF_INET`. -/
def afInet : ℕ := 2

/-- `SOCK_STREAM`. -/
def sockStream : ℕ := 1

def nightListenBacklog : ℤ := 512

/-- `NIGHT_SOCKADDR_STRLEN`. -/
def nightSockaddrStrlen : ℕ := 21

/-- `night_http_listen_opt_t`, with the address that it points to. -/
structure ListenOpt where
  backlog : ℤ
  family : ℕ
  sockaddr : SockaddrIn

/-- `night_http_port_t`. -/
structure Port (σ : Type) where
  port : ℕ
  family : ℕ
  listenOpt : ListenOpt
  server : σ

/-- `night_listening_t`, with the fields that are set here. -/
structure Listening (σ : Type) where
  family : ℕ
  sockaddr : SockaddrIn
  addrTextMaxLen : ℕ
  addrText : List Byte
  fd : ℤ
  type : ℕ
  backlog : ℤ
  rcvbuf : ℤ
  sndbuf : ℤ
  worker : ℕ
  server : Option σ

/-- A `listen` directive: the server of its block, its argument, and whether there is memory for
the address, the options and the element of `ports`. -/
structure Directive (σ : Type) where
  server : σ
  value : List Byte
  address : Bool
  options : Bool
  element : Bool

/-- Whether there is memory for an entry, its address and its text. -/
structure Grants where
  entry : Bool
  address : Bool
  text : Bool

variable {σ : Type}

/-- `sin_port = htons(port)` and `INADDR_ANY`. -/
def anyAddress (port : ℕ) : SockaddrIn where
  addr0 := 0
  addr1 := 0
  addr2 := 0
  addr3 := 0
  port0 := BitVec.ofNat 8 (port / 256)
  port1 := BitVec.ofNat 8 port

def nightGetPort (sin : SockaddrIn) : ℕ := ntohs sin.sinPort

/-- `night_http_add_listen`; a port is a port of all servers. -/
def nightHttpAddListen (element : Bool) (server : σ) (lsopt : ListenOpt) (ports : List (Port σ)) :
    Rc × List (Port σ) :=
  let p := nightGetPort lsopt.sockaddr
  if ports.any fun port => p = port.port && lsopt.family = port.family then (.error, ports)
  else if !element then (.error, ports)
  else (.ok, ports ++ [⟨p, lsopt.family, lsopt, server⟩])

/-- `night_http_listen`; no result would be an overflow in `night_atoi`. -/
def nightHttpListen (directive : Directive σ) (ports : List (Port σ)) :
    Option (Rc × List (Port σ)) :=
  if !directive.address then some (.error, ports)
  else do
    let n ← nightAtoi directive.value
    if n = -1 then some (.error, ports)
    else if n < 1 ∨ n > 65535 then some (.error, ports)
    else if !directive.options then some (.error, ports)
    else some (nightHttpAddListen directive.element directive.server
      ⟨nightListenBacklog, afInet, anyAddress n.toNat⟩ ports)

/-- The parser calls `night_http_listen` for one directive after the other, up to an error. -/
def listenAll : List (Directive σ) → List (Port σ) → Option (Rc × List (Port σ))
  | [], ports => some (.ok, ports)
  | directive :: directives, ports => do
    let (rc, ports) ← nightHttpListen directive ports
    if rc = .ok then listenAll directives ports else some (.error, ports)

/-- `night_create_listening`; the `text` is zeroed. -/
def nightCreateListening (grants : Grants) (family : ℕ) (sockaddr : SockaddrIn) :
    Option (Listening σ) :=
  if !grants.entry then none
  else if !grants.address then none
  else
    let (len, text) := nightSockNtop (fun _ => 0) sockaddr 0 (nightSockaddrStrlen + 1) true
    if !grants.text then none
    else some {
      family := family
      sockaddr := sockaddr
      addrTextMaxLen := nightInetAddrstrlen
      addrText := load text 0 len
      fd := -1
      type := sockStream
      backlog := nightListenBacklog
      rcvbuf := -1
      sndbuf := -1
      worker := 0
      server := none }

def nightHttpAddListening (grants : Grants) (port : Port σ) : Option (Listening σ) :=
  match (nightCreateListening grants port.listenOpt.family port.listenOpt.sockaddr :
    Option (Listening σ)) with
  | none => none
  | some ls => some { ls with
      backlog := port.listenOpt.backlog
      server := some port.server }

/-- The loop of `night_http_optimize_servers`, with `night_http_init_listening`, from the port
`p` on. -/
def nightHttpOptimizeServers (grants : ℕ → Grants) :
    ℕ → List (Port σ) → List (Listening σ) → Rc × List (Listening σ)
  | _, [], listening => (.ok, listening)
  | p, port :: ports, listening =>
    match nightHttpAddListening (grants p) port with
    | none => (.error, listening)
    | some ls => nightHttpOptimizeServers grants (p + 1) ports (listening ++ [ls])

/-- The directives of all servers, and what becomes of them behind the parser. -/
def configure (grants : ℕ → Grants) (directives : List (Directive σ)) :
    Option (Rc × List (Listening σ)) := do
  let (rc, ports) ← listenAll directives []
  if rc = .ok then some (nightHttpOptimizeServers grants 0 ports []) else some (.error, [])

/-! ## What is asked for -/

def Directive.port (directive : Directive σ) : ℕ := decimalValue directive.value

/-- The argument is a port, and there is memory for it. -/
structure Directive.Good (directive : Directive σ) : Prop where
  number : IsNumber directive.value
  low : 1 ≤ directive.port
  high : directive.port ≤ 65535
  address : directive.address = true
  options : directive.options = true
  element : directive.element = true

def Grants.Good (grants : Grants) : Prop :=
  grants.entry = true ∧ grants.address = true ∧ grants.text = true

/-- The address of a listener that takes connections to all addresses. -/
def anyText (port : ℕ) : List Byte := literal "0.0.0.0:" ++ decimal port

/-- The entry of a directive. -/
def Directive.listening (directive : Directive σ) : Listening σ where
  family := afInet
  sockaddr := anyAddress directive.port
  addrTextMaxLen := nightInetAddrstrlen
  addrText := anyText directive.port
  fd := -1
  type := sockStream
  backlog := nightListenBacklog
  rcvbuf := -1
  sndbuf := -1
  worker := 0
  server := some directive.server

/-- The port of a directive. -/
def Directive.entry (directive : Directive σ) : Port σ where
  port := directive.port
  family := afInet
  listenOpt := ⟨nightListenBacklog, afInet, anyAddress directive.port⟩
  server := directive.server

/-! ## The ports -/

/-- A port is read as it was written. -/
theorem nightGetPort_anyAddress {port : ℕ} (hport : port ≤ 65535) :
    nightGetPort (anyAddress port) = port := by
  rw [nightGetPort, ntohs_sinPort, anyAddress]
  simp only [BitVec.toNat_ofNat]
  omega

variable {directive : Directive σ} {directives done : List (Directive σ)} {ports : List (Port σ)}

/-- What the handler reads of its argument. -/
theorem nightAtoi_value (directive : Directive σ) :
    nightAtoi directive.value = some (if IsNumber directive.value ∧ directive.port ≤ 2147483647 then
      ↑directive.port else -1) :=
  (readers_eq directive.value).1

theorem nightHttpListen_good (hgood : directive.Good) :
    nightHttpListen directive ports = some (nightHttpAddListen true directive.server
      ⟨nightListenBacklog, afInet, anyAddress directive.port⟩ ports) := by
  obtain ⟨hnumber, hlow, hhigh, haddress, hoptions, helement⟩ := hgood
  have hread : IsNumber directive.value ∧ directive.port ≤ 2147483647 := ⟨hnumber, by omega⟩
  have herror : ¬ ((directive.port : ℤ) = -1) := by omega
  have hrange : ¬ ((directive.port : ℤ) < 1 ∨ (directive.port : ℤ) > 65535) := by omega
  rw [nightHttpListen, haddress, nightAtoi_value, if_pos hread, hoptions, helement]
  simp only [Bool.not_true, Bool.false_eq_true, if_false, Option.bind_eq_bind, Option.bind_some,
    if_neg herror, if_neg hrange, Int.toNat_natCast]

/-- Anything else is an error. -/
theorem nightHttpListen_bad (hbad : ¬ directive.Good) :
    nightHttpListen directive ports = some (.error, ports) := by
  rw [nightHttpListen, nightAtoi_value]
  cases haddress : directive.address with
  | false => rfl
  | true =>
    by_cases hread : IsNumber directive.value ∧ directive.port ≤ 2147483647
    · have herror : ¬ ((directive.port : ℤ) = -1) := by omega
      rw [if_pos hread]
      simp only [Bool.not_true, Bool.false_eq_true, if_false, Option.bind_eq_bind,
        Option.bind_some, if_neg herror]
      by_cases hrange : (directive.port : ℤ) < 1 ∨ (directive.port : ℤ) > 65535
      · rw [if_pos hrange]
      · rw [if_neg hrange]
        cases hoptions : directive.options with
        | false => rfl
        | true =>
          cases helement : directive.element with
          | false => simp [nightHttpAddListen]
          | true =>
            exact absurd ⟨hread.1, by omega, by omega, haddress, hoptions, helement⟩ hbad
    · rw [if_neg hread]
      rfl

theorem nightHttpAddListen_entries (hhigh : directive.port ≤ 65535) :
    nightHttpAddListen true directive.server
        ⟨nightListenBacklog, afInet, anyAddress directive.port⟩ (done.map Directive.entry) =
      if directive.port ∈ done.map Directive.port then (.error, done.map Directive.entry)
      else (.ok, (done ++ [directive]).map Directive.entry) := by
  have hany : ((done.map Directive.entry).any fun port =>
      directive.port = port.port && afInet = port.family) = true ↔
        directive.port ∈ done.map Directive.port := by
    simp only [List.any_map, List.any_eq_true, Function.comp_apply, Directive.entry,
      Bool.and_eq_true, decide_eq_true_eq, and_true, List.mem_map]
    exact ⟨fun ⟨d, hd, hport⟩ => ⟨d, hd, (of_decide_eq_true hport).symm⟩,
      fun ⟨d, hd, hport⟩ => ⟨d, hd, decide_eq_true hport.symm⟩⟩
  rw [nightHttpAddListen]
  simp only [nightGetPort_anyAddress hhigh]
  by_cases hmem : directive.port ∈ done.map Directive.port
  · rw [if_pos (hany.mpr hmem), if_pos hmem]
  · rw [if_neg fun htrue => hmem (hany.mp htrue), if_neg hmem, List.map_append]
    rfl

/-- Behind directives that were taken the others are, too, when they are good and no port comes
twice. -/
theorem listenAll_eq (hnodup : (done.map Directive.port).Nodup) :
    ∃ rc ports, listenAll directives (done.map Directive.entry) = some (rc, ports) ∧
      (rc = .ok ↔ (∀ d ∈ directives, d.Good) ∧ ((done ++ directives).map Directive.port).Nodup) ∧
      (rc = .ok → ports = (done ++ directives).map Directive.entry) := by
  induction directives generalizing done with
  | nil =>
    refine ⟨.ok, _, rfl, iff_of_true rfl ⟨fun d hd => absurd hd List.not_mem_nil, ?_⟩, fun _ => ?_⟩
    · rwa [List.append_nil]
    · rw [List.append_nil]
  | cons directive directives ih =>
    have hfails : ∀ ports', nightHttpListen directive (done.map Directive.entry) =
        some (.error, ports') →
        listenAll (directive :: directives) (done.map Directive.entry) = some (.error, ports') := by
      intro ports' hlisten
      rw [listenAll, hlisten]
      rfl
    by_cases hgood : directive.Good
    · have hlisten := @nightHttpListen_good σ directive (done.map Directive.entry) hgood
      rw [nightHttpAddListen_entries hgood.high] at hlisten
      by_cases hmem : directive.port ∈ done.map Directive.port
      · rw [if_pos hmem] at hlisten
        refine ⟨.error, _, hfails _ hlisten, iff_of_false (by decide) fun hall => ?_, ?_⟩
        · have hdiffer := hall.2
          rw [List.map_append, List.nodup_append] at hdiffer
          exact hdiffer.2.2 _ hmem _ List.mem_cons_self rfl
        · exact fun heq => absurd heq (by decide)
      · rw [if_neg hmem] at hlisten
        have hmore : ((done ++ [directive]).map Directive.port).Nodup := by
          rw [List.map_append, List.map_singleton, ← List.concat_eq_append]
          exact hnodup.concat hmem
        obtain ⟨rc, ports, hrun, hok, hports⟩ := ih hmore
        rw [List.append_assoc, List.singleton_append] at hok hports
        refine ⟨rc, ports, ?_, ?_, hports⟩
        · rw [listenAll, hlisten]
          exact hrun
        · rw [hok, List.forall_mem_cons, and_iff_right hgood]
    · refine ⟨.error, _, hfails _ (nightHttpListen_bad hgood), ?_, ?_⟩
      · exact iff_of_false (by decide) fun hall => hgood (hall.1 _ List.mem_cons_self)
      · exact fun heq => absurd heq (by decide)

/-! ## The entries -/

variable {grants : ℕ → Grants}

theorem unsigned_zero : unsigned 0 = literal "0" := by decide

theorem dotted_anyAddress {port : ℕ} (hport : port ≤ 65535) :
    dotted unsigned (some (ntohs (anyAddress port).sinPort)) (anyAddress port) = anyText port := by
  have hread : ntohs (anyAddress port).sinPort = port := nightGetPort_anyAddress hport
  have hfront : literal "0.0.0.0:" = literal "0" ++ literal "." ++ literal "0" ++ literal "." ++
      literal "0" ++ literal "." ++ literal "0" ++ literal ":" := by decide
  rw [hread, dotted, anyText, hfront]
  simp only [anyAddress, unsigned_zero, Option.elim_some, List.append_assoc]

/-- The text of an entry is that of its address. -/
theorem load_nightSockNtop {port : ℕ} (hport : port ≤ 65535) (memory : Memory) :
    load (nightSockNtop memory (anyAddress port) 0 (nightSockaddrStrlen + 1) true).2 0
      (nightSockNtop memory (anyAddress port) 0 (nightSockaddrStrlen + 1) true).1 =
        anyText port := by
  have hdecimal : (decimal port).length ≤ 5 :=
    length_decimal_le (by decide) (by omega) (by omega)
  have hlength : (anyText port).length ≤ 21 := by
    rw [anyText, List.length_append, show (literal "0.0.0.0:").length = 8 from rfl]
    omega
  rw [nightSockNtop, if_pos rfl, dotted_anyAddress hport, snprintf, if_neg (by decide),
    nightSockaddrStrlen, Nat.add_sub_cancel, List.take_of_length_le hlength]
  have hstored := load_store memory 0 (anyText port ++ [0])
  rw [List.length_append, List.length_singleton] at hstored
  have hpart := @load_part (store memory 0 (anyText port ++ [0])) 0
    ((anyText port).length + 1) 0 (anyText port).length (by omega)
  rw [hstored, List.drop_zero, List.take_left] at hpart
  exact hpart.symm

theorem nightHttpAddListening_good {granted : Grants} (hgood : granted.Good)
    (hhigh : directive.port ≤ 65535) :
    nightHttpAddListening granted directive.entry = some directive.listening := by
  obtain ⟨hentry, haddress, htext⟩ := hgood
  have hloaded := load_nightSockNtop hhigh fun _ => 0
  rw [nightHttpAddListening, nightCreateListening, hentry, haddress, htext]
  simp only [Bool.not_true, Bool.false_eq_true, if_false, Directive.entry, hloaded]
  rfl

theorem nightHttpAddListening_bad {granted : Grants} (hbad : ¬ granted.Good) :
    nightHttpAddListening granted directive.entry = none := by
  obtain ⟨entry, address, text⟩ := granted
  cases entry with
  | false => rfl
  | true =>
    cases address with
    | false => rfl
    | true =>
      cases text with
      | false => rfl
      | true => exact absurd ⟨rfl, rfl, rfl⟩ hbad

theorem nightHttpOptimizeServers_eq (hhigh : ∀ d ∈ directives, d.port ≤ 65535) (p : ℕ)
    (listening : List (Listening σ)) :
    ∃ rc listening', nightHttpOptimizeServers grants p (directives.map Directive.entry) listening =
        (rc, listening') ∧
      (rc = .ok ↔ ∀ i < directives.length, (grants (p + i)).Good) ∧
      (rc = .ok → listening' = listening ++ directives.map Directive.listening) := by
  induction directives generalizing p listening with
  | nil =>
    refine ⟨.ok, listening, rfl, iff_of_true rfl fun i hi => absurd hi (Nat.not_lt_zero i),
      fun _ => ?_⟩
    rw [List.map_nil, List.append_nil]
  | cons directive directives ih =>
    obtain ⟨hfirst, hrest⟩ := List.forall_mem_cons.mp hhigh
    by_cases hgood : (grants p).Good
    · obtain ⟨rc, listening', hrun, hok, hlistening⟩ :=
        ih hrest (p + 1) (listening ++ [directive.listening])
      refine ⟨rc, listening', ?_, ?_, fun hrc => ?_⟩
      · rw [List.map_cons, nightHttpOptimizeServers, nightHttpAddListening_good hgood hfirst]
        exact hrun
      · rw [hok, List.length_cons]
        constructor
        · rintro hall i hi
          cases i with
          | zero => exact hgood
          | succ i =>
            have hnext := hall i (Nat.lt_of_succ_lt_succ hi)
            rwa [Nat.add_right_comm] at hnext
        · rintro hall i hi
          have hnext := hall (i + 1) (Nat.succ_lt_succ hi)
          rwa [← Nat.add_assoc, Nat.add_right_comm] at hnext
      · rw [hlistening hrc, List.append_assoc, List.singleton_append, List.map_cons]
    · refine ⟨.error, listening, ?_, iff_of_false (by decide) fun hall => ?_, fun heq => ?_⟩
      · rw [List.map_cons, nightHttpOptimizeServers, nightHttpAddListening_bad hgood]
      · exact hgood (hall 0 (Nat.succ_pos _))
      · exact absurd heq (by decide)

/-! ## From the directives to the entries -/

/-- No two ports have one text. -/
theorem anyText_inj {port port' : ℕ} (heq : anyText port = anyText port') : port = port' := by
  have hdecimal : decimal port = decimal port' := List.append_cancel_left heq
  exact Int.ofNat_inj.mp (decimal_inj (Int.natCast_nonneg port) (Int.natCast_nonneg port') hdecimal)

/-- The configuration is taken just when every argument is a port, no two directives name the
same one and there is memory.  Then every directive has its entry, and the port of an entry or
its text leads to the server in whose block it was. -/
theorem configure_listens (grants : ℕ → Grants) (directives : List (Directive σ)) :
    ∃ rc listening, configure grants directives = some (rc, listening) ∧
      (rc = .ok ↔ (∀ d ∈ directives, d.Good) ∧ (directives.map Directive.port).Nodup ∧
        ∀ p < directives.length, (grants p).Good) ∧
      (rc = .ok → listening = directives.map Directive.listening ∧
        ∀ ls ∈ listening, ∀ d ∈ directives,
          nightGetPort ls.sockaddr = d.port ∨ ls.addrText = anyText d.port →
            ls.server = some d.server) := by
  obtain ⟨rc, ports, hrun, hok, hports⟩ :=
    @listenAll_eq σ directives [] List.nodup_nil
  rw [List.nil_append] at hok hports
  rw [List.map_nil] at hrun
  rw [configure, hrun]
  simp only [Option.bind_eq_bind, Option.bind_some]
  cases rc with
  | error =>
    refine ⟨.error, [], rfl, iff_of_false (by decide) fun hall => ?_, fun heq => ?_⟩
    · exact absurd (hok.mpr ⟨hall.1, hall.2.1⟩) (by decide)
    · exact absurd heq (by decide)
  | ok =>
    obtain ⟨hgood, hnodup⟩ := hok.mp rfl
    have hhigh : ∀ d ∈ directives, d.port ≤ 65535 := fun d hd => (hgood d hd).high
    obtain ⟨rc, listening, hopt, hgranted, hlistening⟩ :=
      @nightHttpOptimizeServers_eq σ directives grants hhigh 0 []
    rw [hports rfl, if_pos rfl, hopt]
    refine ⟨rc, listening, rfl, ?_, fun hrc => ?_⟩
    · rw [hgranted, and_iff_right hgood, and_iff_right hnodup]
      simp only [Nat.zero_add]
    · have hall := hlistening hrc
      rw [List.nil_append] at hall
      refine ⟨hall, fun ls hls d hd hsame => ?_⟩
      rw [hall] at hls
      obtain ⟨other, hother, rfl⟩ := List.mem_map.mp hls
      have hport : other.port = d.port := by
        rcases hsame with hsame | hsame
        · exact (nightGetPort_anyAddress (hhigh other hother)).symm.trans hsame
        · exact anyText_inj hsame
      obtain rfl := List.inj_on_of_nodup_map hnodup hother hd hport
      rfl

end Night.Listen
