import Night.Os.Writev

/-!
# `night_linux_sendfile_chain`

The loop that sends a chain with `writev`.  What its locals `n` and `sent` hold before they
are assigned, and the answers of the kernel, are input.
-/

namespace Night.Sendfile

open Night.Bytes
open Night.Bufs
open Night.Writev

/-! ## Model -/

/-- An answer to `writev`: it takes at least a byte if there is one. -/
inductive Result where
  | writes (count : ℕ)
  | again
  | interrupted
  | failed
  deriving DecidableEq, Repr

/-- What `night_writev` returns. -/
inductive Written where
  | bytes (n : ℕ)
  | again
  | error
  deriving DecidableEq, Repr

/-- The connection: `results` are the answers that are still to come, after them the kernel
takes everything; `wire` is what it has taken. -/
structure Conn where
  sent : ℕ
  ready : Bool
  error : Bool
  wire : List Byte
  results : List Result
  deriving DecidableEq, Repr

/-- `writev` for `size` bytes, again while it is interrupted. -/
def answer (size : ℕ) : List Result → Written × List Result
  | [] => (.bytes size, [])
  | .writes count :: results => (.bytes (min (count + 1) size), results)
  | .again :: results => (.again, results)
  | .interrupted :: results => answer size results
  | .failed :: results => (.error, results)

variable (storage : Storage)

def nightWritev (vec : Vec) (c : Conn) : Written × Conn :=
  let answered := answer vec.size c.results
  match answered.1 with
  | .bytes n =>
      (.bytes n, { c with
        wire := c.wire ++ (entryBytes storage vec.iovs).take n
        results := answered.2 })
  | .again => (.again, { c with results := answered.2 })
  | .error => (.error, { c with results := answered.2, error := true })

/-- `NIGHT_IOVS_PREALLOCATE` -/
def nightIovsPreallocate : ℕ := 64

/-- `NIGHT_SENDFILE_MAXSIZE` -/
def nightSendfileMaxsize : ℕ := 2147483647

/-- What the function returns, or that it follows a null pointer. -/
inductive End where
  | chain (rest : List Buf)
  | error
  | crashed

structure Locals where
  send : ℕ
  n : Written
  sent : ℕ
  deriving DecidableEq, Repr

/-- The body of the loop from `c->sent += sent` on; the loop ends or goes on. -/
def settle (limit : ℕ) (l : Locals) (chain : List Buf) (c : Conn) :
    Except (End × Conn) (Locals × List Buf × Conn) :=
  let c := { c with sent := c.sent + l.sent }
  let rest := (nightChainUpdateSent chain l.sent).2
  if l.n = .again then .error (.chain rest, { c with ready := false })
  else if limit ≤ l.send ∨ rest = [] then .error (.chain rest, c)
  else .ok (l, rest, c)

/-- The body of the loop.  For a file buffer it sends nothing and assigns neither `n` nor
`sent`. -/
def sendRound (limit : ℕ) (l : Locals) (chain : List Buf) (c : Conn) :
    Except (End × Conn) (Locals × List Buf × Conn) :=
  match nightOutputChainToIovec nightIovsPreallocate chain (limit - l.send) with
  | none => .error (.crashed, c)
  | some (header, cl) =>
      let send := l.send + header.size
      if header.count = 0 ∧ cl.head?.any Buf.inFile ∧ send < limit then
        settle limit { l with send := send } chain c
      else
        match nightWritev storage header c with
        | (.error, c) => .error (.error, c)
        | (.again, c) => settle limit ⟨send, .again, 0⟩ chain c
        | (.bytes n, c) => settle limit ⟨send, .bytes n, n⟩ chain c

def sendLoop (limit : ℕ) : ℕ → Locals → List Buf → Conn → Option (End × Conn)
  | 0, _, _, _ => none
  | fuel + 1, l, chain, c =>
      match sendRound storage limit l chain c with
      | .error ended => some ended
      | .ok (l, chain, c) => sendLoop limit fuel l chain c

/-- The limit in the loop; where a negative one is compared with `send`, it is unsigned. -/
def effectiveLimit (pageSize : ℕ) (limit : BitVec 64) : ℕ :=
  if limit = 0 ∨ (nightSendfileMaxsize : ℤ) - pageSize < limit.toInt then
    nightSendfileMaxsize - pageSize
  else limit.toNat

/-- `stack` is what `n` and `sent` hold at first. -/
def nightLinuxSendfileChain (pageSize fuel : ℕ) (stack : Written × ℕ) (chain : List Buf)
    (limit : BitVec 64) (c : Conn) : Option (End × Conn) :=
  if !c.ready then some (.chain chain, c)
  else sendLoop storage (effectiveLimit pageSize limit) fuel ⟨0, stack.1, stack.2⟩ chain c

/-! ## What is sent -/

/-- The bytes that the kernel took are the first ones of the chain, they are counted, and a
chain that is returned holds the others. -/
def Sends (chain : List Buf) (c : Conn) (ended : End) (c' : Conn) : Prop :=
  ∃ count ≤ chainSize chain, c'.sent = c.sent + count ∧
    c'.wire = c.wire ++ (bytesOf storage chain).take count ∧
    match ended with
    | .chain rest => bytesOf storage rest = (bytesOf storage chain).drop count
    | .error => True
    | .crashed => False

/-- The write filter hands in no buffer of size zero. -/
structure Sendable (b : Buf) : Prop where
  size : 0 < nightBufSize b
  pos : b.inFile = false → b.pos ≠ 0

/-- The buffers in memory at the front of a chain. -/
def inMemory (chain : List Buf) : List Buf := chain.takeWhile fun b => !b.inFile

variable {storage} {b : Buf} {chain rest : List Buf} {c c' : Conn} {limit sent : ℕ} {l : Locals}
  {ended : End}

theorem inMemory_cons_file (hfile : b.inFile = true) (chain : List Buf) :
    inMemory (b :: chain) = [] := by
  rw [inMemory, List.takeWhile_cons, hfile]
  rfl

theorem inMemory_cons_memory (hfile : b.inFile = false) (chain : List Buf) :
    inMemory (b :: chain) = b :: inMemory chain := by
  rw [inMemory, List.takeWhile_cons, hfile]
  rfl

/-! ## The chain after an update -/

theorem advance_inFile (b : Buf) (hsent : sent < nightBufSize b) :
    (b.advance sent hsent).inFile = b.inFile := by
  rw [Buf.advance]
  split <;> rfl

theorem sendable_advance (hb : Sendable b) (hsent : sent < nightBufSize b) :
    Sendable (b.advance sent hsent) where
  size := by
    rw [nightBufSize_advance]
    omega
  pos := by
    intro hfile
    rw [advance_inFile] at hfile
    have hpos := hb.pos hfile
    have hfile' : ¬ b.inFile = true := by
      rw [hfile]
      decide
    rw [Buf.advance, dif_neg hfile']
    change b.pos + sent ≠ 0
    omega

/-- What holds of all buffers and stays when one is advanced holds of those that are left. -/
theorem forall_rest {p : Buf → Prop}
    (hadvance : ∀ b sent (hsent : sent < nightBufSize b), p b → p (b.advance sent hsent))
    (hchain : ∀ b ∈ chain, p b) (sent : ℕ) : ∀ b ∈ (nightChainUpdateSent chain sent).2, p b := by
  induction chain generalizing sent with
  | nil => exact nofun
  | cons b chain ih =>
      obtain ⟨hb, hrest⟩ := List.forall_mem_cons.mp hchain
      rw [nightChainUpdateSent]
      split
      · exact hchain
      · split
        · exact List.forall_mem_cons.mpr ⟨hadvance b _ _ hb, hrest⟩
        · exact ih hrest _

theorem sendable_rest (hchain : ∀ b ∈ chain, Sendable b) (sent : ℕ) :
    ∀ b ∈ (nightChainUpdateSent chain sent).2, Sendable b :=
  forall_rest (fun _ _ hsent hb => sendable_advance hb hsent) hchain sent

theorem noFile_rest (hchain : ∀ b ∈ chain, b.inFile = false) (sent : ℕ) :
    ∀ b ∈ (nightChainUpdateSent chain sent).2, b.inFile = false :=
  forall_rest (fun b _ hsent hb => (advance_inFile b hsent).trans hb) hchain sent

/-- A file behind more bytes than were sent stays in the chain. -/
theorem file_rest (hsent : sent ≤ chainSize (inMemory chain))
    (hfile : ∃ b ∈ chain, b.inFile = true) :
    ∃ b ∈ (nightChainUpdateSent chain sent).2, b.inFile = true := by
  induction chain generalizing sent with
  | nil =>
      obtain ⟨b, hb, -⟩ := hfile
      cases hb
  | cons b chain ih =>
      rw [nightChainUpdateSent]
      split
      · exact hfile
      · rename_i hzero
        cases hb : b.inFile with
        | true =>
            rw [inMemory_cons_file hb, chainSize_nil] at hsent
            omega
        | false =>
            have hrest : ∃ b ∈ chain, b.inFile = true := by
              obtain ⟨b', hb', hfile'⟩ := hfile
              rcases List.mem_cons.mp hb' with rfl | hb'
              · rw [hb] at hfile'
                cases hfile'
              · exact ⟨b', hb', hfile'⟩
            split
            · obtain ⟨b', hb', hfile'⟩ := hrest
              exact ⟨b', List.mem_cons_of_mem _ hb', hfile'⟩
            · rw [inMemory_cons_memory hb, chainSize_cons] at hsent
              exact ih (by omega) hrest

/-- The bytes in memory that are left. -/
theorem inMemory_rest (hsent : sent ≤ chainSize (inMemory chain)) :
    chainSize (inMemory (nightChainUpdateSent chain sent).2) + sent =
      chainSize (inMemory chain) := by
  induction chain generalizing sent with
  | nil =>
      change sent ≤ 0 at hsent
      rw [Nat.le_zero.mp hsent]
      rfl
  | cons b chain ih =>
      rw [nightChainUpdateSent]
      split
      · rename_i hzero
        rw [hzero]
        rfl
      · cases hb : b.inFile with
        | true =>
            rw [inMemory_cons_file hb, chainSize_nil] at hsent
            omega
        | false =>
            rw [inMemory_cons_memory hb, chainSize_cons] at hsent ⊢
            split
            · rename_i hpart
              rw [inMemory_cons_memory ((advance_inFile b hpart).trans hb), chainSize_cons,
                nightBufSize_advance]
              omega
            · have hrest : sent - nightBufSize b ≤ chainSize (inMemory chain) := by omega
              have hleft := ih hrest
              change chainSize (inMemory (nightChainUpdateSent chain _).2) + sent = _
              omega

theorem bytes_rest (storage : Storage) (chain : List Buf) (sent : ℕ) :
    bytesOf storage (nightChainUpdateSent chain sent).2 = (bytesOf storage chain).drop sent := by
  have hupdated := nightChainUpdateSent_updated storage chain sent
  have hgone : bytesOf storage (nightChainUpdateSent chain sent).1 = [] := by
    apply List.flatMap_eq_nil_iff.mpr
    intro b hb
    rw [← List.length_eq_zero_iff, Buf.length_bytes]
    exact hupdated.before b hb
  rw [← hupdated.bytes, bytesOf_append, hgone, List.nil_append]

theorem size_rest (chain : List Buf) (sent : ℕ) :
    chainSize (nightChainUpdateSent chain sent).2 = chainSize chain - sent := by
  have hbytes := bytes_rest ⟨fun _ => 0, fun _ _ => 0⟩ chain sent
  rw [← length_bytesOf ⟨fun _ => 0, fun _ _ => 0⟩, hbytes, List.length_drop, length_bytesOf]

/-! ## What is gathered -/

/-- The entries hold bytes of the buffers in memory at the front. -/
theorem gathers_le_inMemory {nalloc : ℕ} {vec : Vec}
    (h : Gathers storage nalloc limit chain vec rest) : vec.size ≤ chainSize (inMemory chain) := by
  obtain ⟨passed, rfl, hmemory, hsize, -⟩ := h.covers
  have hle : chainSize passed ≤ chainSize (inMemory (passed ++ rest)) := by
    clear hsize h
    induction passed with
    | nil => exact Nat.zero_le _
    | cons b passed ih =>
        obtain ⟨hb, hrest⟩ := List.forall_mem_cons.mp hmemory
        rw [List.cons_append, inMemory_cons_memory hb, chainSize_cons, chainSize_cons]
        exact Nat.add_le_add_left (ih hrest) _
  omega

theorem inMemory_le (chain : List Buf) : chainSize (inMemory chain) ≤ chainSize chain := by
  induction chain with
  | nil => exact Nat.le_refl _
  | cons b chain ih =>
      cases hb : b.inFile with
      | true =>
          rw [inMemory_cons_file hb]
          exact Nat.zero_le _
      | false =>
          rw [inMemory_cons_memory hb, chainSize_cons, chainSize_cons]
          exact Nat.add_le_add_left ih _

/-- A buffer in memory at the front gives bytes. -/
theorem gathers_pos {vec : Vec} (hb : Sendable b) (hfile : b.inFile = false) (hlimit : 0 < limit)
    (h : Gathers storage nightIovsPreallocate limit (b :: chain) vec rest) : 0 < vec.size := by
  obtain ⟨passed, heq, -, hsize, hcount, -⟩ := h.covers
  cases passed with
  | cons b' passed =>
      have hsame : b' = b := (List.cons.inj heq).1.symm
      rw [chainSize_cons, hsame] at hsize
      have hpos := hb.size
      omega
  | nil =>
      rw [List.nil_append] at heq
      subst heq
      rw [chainSize_nil] at hsize
      rw [List.length_nil] at hcount
      rcases h.stops with hfull | hfile' | ⟨hall, -⟩
      · omega
      · rw [hfile] at hfile'
        cases hfile'
      · rw [nightIovsPreallocate] at hall
        omega

/-! ## A round -/

theorem answer_bytes_le {size n : ℕ} {results : List Result}
    (hanswer : (answer size results).1 = .bytes n) : n ≤ size := by
  induction results with
  | nil => exact Nat.le_of_eq (Written.bytes.inj hanswer).symm
  | cons result results ih =>
      cases result with
      | writes count =>
          have hn : min (count + 1) size = n := Written.bytes.inj hanswer
          rw [← hn]
          exact Nat.min_le_right _ _
      | again => cases hanswer
      | interrupted => exact ih hanswer
      | failed => cases hanswer

/-- Bytes of a chain were sent, and the loop goes on with the rest. -/
structure Moves (storage : Storage) (chain : List Buf) (c : Conn) (rest : List Buf) (c' : Conn)
    (n : ℕ) : Prop where
  le : n ≤ chainSize (inMemory chain)
  rest : rest = (nightChainUpdateSent chain n).2
  sent : c'.sent = c.sent + n
  wire : c'.wire = c.wire ++ (bytesOf storage chain).take n

theorem Moves.sends {n : ℕ} (h : Moves storage chain c rest c' n) {c'' : Conn}
    (hsends : Sends storage rest c' ended c'') : Sends storage chain c ended c'' := by
  obtain ⟨count, hcount, hsent, hwire, hended⟩ := hsends
  have hle := Nat.le_trans h.le (inMemory_le chain)
  rw [h.rest, size_rest] at hcount
  rw [h.rest, bytes_rest] at hwire
  refine ⟨n + count, by omega, ?_, ?_, ?_⟩
  · rw [hsent, h.sent, Nat.add_assoc]
  · rw [hwire, h.wire, List.append_assoc, List.take_add]
  · cases ended with
    | chain last =>
        change bytesOf storage last = _ at hended ⊢
        rw [hended, h.rest, bytes_rest, List.drop_drop]
    | error => trivial
    | crashed => exact hended

/-- The end of a round that has sent bytes. -/
theorem settle_spec (limit : ℕ) (l : Locals) (c c₁ : Conn) {n : ℕ}
    (hle : n ≤ chainSize (inMemory chain)) (hsent : c₁.sent = c.sent)
    (hwire : c₁.wire = c.wire ++ (bytesOf storage chain).take n)
    (hn : l.sent = n) :
    (∃ ended c', settle limit l chain c₁ = .error (ended, c') ∧ Sends storage chain c ended c') ∨
      ∃ rest c', settle limit l chain c₁ = .ok (l, rest, c') ∧ Moves storage chain c rest c' n ∧
        l.send < limit ∧ rest ≠ [] ∧ c'.results = c₁.results := by
  have hall := Nat.le_trans hle (inMemory_le chain)
  rw [settle, hn]
  split
  · exact Or.inl ⟨_, _, rfl, n, hall, congrArg (· + n) hsent, hwire, bytes_rest storage chain n⟩
  · split
    · exact Or.inl ⟨_, _, rfl, n, hall, congrArg (· + n) hsent, hwire, bytes_rest storage chain n⟩
    · rename_i hend
      rw [not_or] at hend
      exact Or.inr ⟨_, _, rfl, ⟨hle, rfl, congrArg (· + n) hsent, hwire⟩, Nat.not_le.mp hend.1,
        hend.2, rfl⟩

/-- A round without a file buffer at the front gathers what it can and writes it. -/
theorem sendRound_writes (storage : Storage) (hchain : ∀ b ∈ chain, Sendable b)
    (hfront : limit ≤ l.send ∨ ∀ b ∈ chain.head?, b.inFile = false) (c : Conn) :
    ∃ header rest,
      Gathers storage nightIovsPreallocate (limit - l.send) chain header rest ∧
      sendRound storage limit l chain c =
        match nightWritev storage header c with
        | (.error, c) => .error (.error, c)
        | (.again, c) => settle limit ⟨l.send + header.size, .again, 0⟩ chain c
        | (.bytes n, c) => settle limit ⟨l.send + header.size, .bytes n, n⟩ chain c := by
  have hnull : ∀ b ∈ chain.head?, b.inFile = false → b.pos ≠ 0 :=
    fun b hb => (hchain b (List.mem_of_mem_head? hb)).pos
  obtain ⟨header, rest, hgather, h⟩ :=
    nightOutputChainToIovec_gathers storage nightIovsPreallocate (limit - l.send) hnull
  refine ⟨header, rest, h, ?_⟩
  have hbranch :
      ¬ (header.count = 0 ∧ rest.head?.any Buf.inFile ∧ l.send + header.size < limit) := by
    rintro ⟨hcount, hfile, hsend⟩
    have hfront := hfront.resolve_left (by omega)
    cases chain with
    | nil =>
        obtain ⟨passed, heq, -⟩ := h.covers
        rw [(List.append_eq_nil_iff.mp heq.symm).2] at hfile
        cases hfile
    | cons b chain =>
        have hpos := gathers_pos (hchain b List.mem_cons_self) (hfront b rfl) (by omega) h
        have hiovs : header.iovs = [] := by
          rw [← List.length_eq_zero_iff, ← h.fits.count]
          exact hcount
        have hsize := h.fits.size
        rw [hiovs, List.map_nil, List.sum_nil] at hsize
        omega
  rw [sendRound, hgather]
  exact if_neg hbranch

/-- What the kernel takes of the gathered bytes are the first ones of the chain. -/
theorem take_entries {nalloc limit n : ℕ} {header : Vec}
    (h : Gathers storage nalloc limit chain header rest) (hn : n ≤ header.size) :
    (entryBytes storage header.iovs).take n = (bytesOf storage chain).take n := by
  rw [h.bytes, List.take_take, Nat.min_eq_left hn]

theorem sendRound_spec (storage : Storage) (hchain : ∀ b ∈ chain, Sendable b)
    (hfront : limit ≤ l.send ∨ ∀ b ∈ chain.head?, b.inFile = false) (c : Conn) :
    (∃ ended c', sendRound storage limit l chain c = .error (ended, c') ∧
        Sends storage chain c ended c') ∨
      ∃ l' rest c' n, sendRound storage limit l chain c = .ok (l', rest, c') ∧
        Moves storage chain c rest c' n ∧ l.send + n ≤ l'.send ∧ l.send < l'.send ∧
        l'.send < limit ∧ rest ≠ [] := by
  obtain ⟨header, cl, h, hround⟩ := sendRound_writes storage hchain hfront c
  have hsize := gathers_le_inMemory h
  rw [hround, nightWritev]
  cases hanswer : (answer header.size c.results).1 with
  | error =>
      exact Or.inl ⟨.error, _, rfl, 0, Nat.zero_le _, rfl, (List.append_nil c.wire).symm, trivial⟩
  | again =>
      have hwire : c.wire = c.wire ++ (bytesOf storage chain).take 0 := (List.append_nil _).symm
      rcases settle_spec limit ⟨l.send + header.size, .again, 0⟩ c
        { c with results := (answer header.size c.results).2 } (Nat.zero_le _) rfl hwire rfl with
        hended | ⟨rest, c', hgoes, -⟩
      · exact Or.inl hended
      · rw [settle, if_pos rfl] at hgoes
        cases hgoes
  | bytes n =>
      have hn := answer_bytes_le hanswer
      have hwire : c.wire ++ (entryBytes storage header.iovs).take n =
          c.wire ++ (bytesOf storage chain).take n := by rw [take_entries h hn]
      rcases settle_spec limit ⟨l.send + header.size, .bytes n, n⟩ c
        { c with
          wire := c.wire ++ (entryBytes storage header.iovs).take n
          results := (answer header.size c.results).2 }
        (Nat.le_trans hn hsize) rfl hwire rfl with
        hended | ⟨rest, c', hgoes, hmoves, hsend, hrest, -⟩
      · exact Or.inl hended
      · right
        refine ⟨_, rest, c', n, hgoes, hmoves, Nat.add_le_add_left hn _, ?_, hsend, hrest⟩
        change l.send < l.send + header.size
        cases chain with
        | nil =>
            rw [hmoves.rest] at hrest
            exact absurd rfl hrest
        | cons b chain =>
            have hroom : l.send < limit := by
              change l.send + header.size < limit at hsend
              omega
            have hfile := hfront.resolve_left (Nat.not_le.mpr hroom) b rfl
            have hpos := gathers_pos (hchain b List.mem_cons_self) hfile (by omega) h
            omega

/-! ## The loop -/

/-- The limit is reached before a file buffer is. -/
def Safe (limit send : ℕ) (chain : List Buf) : Prop :=
  (∀ b ∈ chain, b.inFile = false) ∨ limit ≤ send + chainSize (inMemory chain)

theorem Safe.front {send : ℕ} (h : Safe limit send chain) :
    limit ≤ send ∨ ∀ b ∈ chain.head?, b.inFile = false := by
  rcases h with hmemory | hlimit
  · exact Or.inr fun b hb => hmemory b (List.mem_of_mem_head? hb)
  · cases chain with
    | nil => exact Or.inr nofun
    | cons b chain =>
        cases hfile : b.inFile with
        | true =>
            rw [inMemory_cons_file hfile] at hlimit
            exact Or.inl hlimit
        | false =>
            right
            rintro _ ⟨⟩
            exact hfile

theorem Safe.moves {send send' n : ℕ} (h : Safe limit send chain)
    (hmoves : Moves storage chain c rest c' n) (hsend : send + n ≤ send') :
    Safe limit send' rest := by
  rw [hmoves.rest]
  rcases h with hmemory | hlimit
  · exact Or.inl (noFile_rest hmemory n)
  · have hleft := inMemory_rest hmoves.le
    exact Or.inr (by omega)

theorem sendLoop_sends (storage : Storage) (l : Locals) (hchain : ∀ b ∈ chain, Sendable b)
    (hsafe : Safe limit l.send chain) (c : Conn) {fuel : ℕ} (hfuel : limit - l.send < fuel) :
    ∃ ended c', sendLoop storage limit fuel l chain c = some (ended, c') ∧
      Sends storage chain c ended c' := by
  induction fuel generalizing l chain c with
  | zero => exact absurd hfuel (Nat.not_lt_zero _)
  | succ fuel ih =>
      rcases sendRound_spec storage hchain hsafe.front c with
        ⟨ended, c', hround, hsends⟩ |
        ⟨l', rest, c', n, hround, hmoves, hcount, hmore, hsend, -⟩
      · refine ⟨ended, c', ?_, hsends⟩
        rw [sendLoop, hround]
      · have hchain' : ∀ b ∈ rest, Sendable b := by
          rw [hmoves.rest]
          exact sendable_rest hchain n
        obtain ⟨ended, c'', hloop, hsends⟩ :=
          ih l' hchain' (hsafe.moves hmoves hcount) c' (by omega)
        refine ⟨ended, c'', ?_, hmoves.sends hsends⟩
        rw [sendLoop, hround]
        exact hloop

/-! ## File buffers -/

/-- The connection at the end of a round. -/
def connAfter : Except (End × Conn) (Locals × List Buf × Conn) → Conn
  | .error ended => ended.2
  | .ok next => next.2.2

theorem connAfter_settle (limit : ℕ) (l : Locals) (chain : List Buf) (c : Conn) :
    (connAfter (settle limit l chain c)).sent = c.sent + l.sent ∧
      (connAfter (settle limit l chain c)).wire = c.wire ∧
      (connAfter (settle limit l chain c)).results = c.results := by
  rw [settle]
  split
  · exact ⟨rfl, rfl, rfl⟩
  · split
    · exact ⟨rfl, rfl, rfl⟩
    · exact ⟨rfl, rfl, rfl⟩

/-- No round counts less than the kernel takes. -/
theorem sendRound_counts (storage : Storage) (limit : ℕ) (l : Locals) (chain : List Buf)
    (hresults : c.results = []) :
    (connAfter (sendRound storage limit l chain c)).wire.length + c.sent ≤
        (connAfter (sendRound storage limit l chain c)).sent + c.wire.length ∧
      (connAfter (sendRound storage limit l chain c)).results = [] := by
  rw [sendRound]
  cases nightOutputChainToIovec nightIovsPreallocate chain (limit - l.send) with
  | none => exact ⟨Nat.le_of_eq (Nat.add_comm _ _), hresults⟩
  | some gathered =>
      obtain ⟨header, cl⟩ := gathered
      change (connAfter (if _ then _ else _)).wire.length + c.sent ≤
          (connAfter (if _ then _ else _)).sent + c.wire.length ∧
        (connAfter (if _ then _ else _)).results = []
      split
      · have hsettle := connAfter_settle limit ⟨l.send + header.size, l.n, l.sent⟩ chain c
        rw [hsettle.1, hsettle.2.1, hsettle.2.2]
        exact ⟨by omega, hresults⟩
      · rw [nightWritev, hresults]
        have hsettle := connAfter_settle limit
          ⟨l.send + header.size, .bytes header.size, header.size⟩ chain
          { c with
            wire := c.wire ++ (entryBytes storage header.iovs).take header.size
            results := (answer header.size []).2 }
        refine ⟨?_, hsettle.2.2⟩
        change (connAfter (settle limit _ chain _)).wire.length + c.sent ≤
          (connAfter (settle limit _ chain _)).sent + c.wire.length
        rw [hsettle.1, hsettle.2.1, List.length_append, List.length_take]
        change c.wire.length + _ + c.sent ≤ c.sent + header.size + c.wire.length
        omega

/-- What was counted and not sent stays so. -/
theorem sendLoop_overcounts (storage : Storage) (limit fuel : ℕ) (l : Locals) (chain : List Buf)
    (hresults : c.results = []) (hless : c.wire.length < c.sent)
    (hloop : sendLoop storage limit fuel l chain c = some (ended, c')) :
    c'.wire.length < c'.sent := by
  induction fuel generalizing l chain c with
  | zero => cases hloop
  | succ fuel ih =>
      have hcounts := sendRound_counts storage limit l chain hresults
      rw [sendLoop] at hloop
      cases hround : sendRound storage limit l chain c with
      | error stopped =>
          rw [hround] at hloop hcounts
          obtain rfl := Option.some.inj hloop
          have hcount := hcounts.1
          change c'.wire.length + c.sent ≤ c'.sent + c.wire.length at hcount
          omega
      | ok next =>
          obtain ⟨l', rest, c₁⟩ := next
          rw [hround] at hloop hcounts
          have hcount := hcounts.1
          change c₁.wire.length + c.sent ≤ c₁.sent + c.wire.length at hcount
          exact ih l' rest hcounts.2 (by omega) hloop

/-- At a file buffer within the limit a round counts what the one before it has sent. -/
theorem sendRound_file (storage : Storage) {b : Buf} (hfront : b.inFile = true)
    (hlimit : l.send < limit) (c : Conn) :
    sendRound storage limit l (b :: chain) c = settle limit l (b :: chain) c := by
  have hgather : nightOutputChainToIovec nightIovsPreallocate (b :: chain)
      (limit - l.send) = some (⟨[], 0, 0⟩, b :: chain) := by
    rw [nightOutputChainToIovec, fill, if_pos (by change 0 < limit - l.send; omega),
      if_pos hfront]
  rw [sendRound, hgather]
  exact if_pos ⟨rfl, hfront, by change l.send + 0 < limit; omega⟩

/-- A loop that begins at a file buffer counts more than it sends. -/
theorem sendLoop_front (storage : Storage) {b : Buf} (hfront : b.inFile = true)
    (hlimit : l.send < limit) (hsent : 0 < l.sent) (hresults : c.results = [])
    (hcount : c.wire.length = c.sent) {fuel : ℕ}
    (hloop : sendLoop storage limit fuel l (b :: chain) c = some (ended, c')) :
    c'.wire.length < c'.sent := by
  cases fuel with
  | zero => cases hloop
  | succ fuel =>
      have hsettle := connAfter_settle limit l (b :: chain) c
      rw [sendLoop, sendRound_file storage hfront hlimit] at hloop
      cases hsettled : settle limit l (b :: chain) c with
      | error stopped =>
          rw [hsettled] at hloop hsettle
          obtain rfl := Option.some.inj hloop
          obtain ⟨hsent', hwire, -⟩ := hsettle
          change c'.sent = c.sent + l.sent at hsent'
          change c'.wire = c.wire at hwire
          rw [hsent', hwire]
          omega
      | ok next =>
          obtain ⟨l', rest, c₁⟩ := next
          rw [hsettled] at hloop hsettle
          obtain ⟨hsent', hwire, hresults'⟩ := hsettle
          change c₁.sent = c.sent + l.sent at hsent'
          change c₁.wire = c.wire at hwire
          change c₁.results = c.results at hresults'
          apply sendLoop_overcounts storage limit fuel l' rest (hresults'.trans hresults) ?_ hloop
          rw [hsent', hwire]
          omega

/-- With a file buffer in reach the loop gets to it, and counts what it has not sent. -/
theorem sendLoop_file (storage : Storage) (hchain : ∀ b ∈ chain, Sendable b)
    (hfile : ∃ b ∈ chain, b.inFile = true) (hlimit : l.send + chainSize (inMemory chain) < limit)
    (hsent : 0 < l.sent) (hresults : c.results = []) (hcount : c.wire.length = c.sent)
    {fuel : ℕ} (hloop : sendLoop storage limit fuel l chain c = some (ended, c')) :
    c'.wire.length < c'.sent := by
  induction fuel generalizing l chain c with
  | zero => cases hloop
  | succ fuel ih =>
      have hbelow : l.send < limit := by omega
      cases chain with
      | nil =>
          obtain ⟨b, hb, -⟩ := hfile
          cases hb
      | cons b chain =>
          cases hfront : b.inFile with
          | true => exact sendLoop_front storage hfront hbelow hsent hresults hcount hloop
          | false =>
              -- everything in front of the file buffer is written
              have hhead : ∀ b' ∈ (b :: chain).head?, b'.inFile = false := by
                rintro _ ⟨⟩
                exact hfront
              obtain ⟨header, cl, h, hround⟩ :=
                sendRound_writes storage hchain (Or.inr hhead) c
              have hroom : 0 < limit - l.send := by omega
              have hpos := gathers_pos (hchain b List.mem_cons_self) hfront hroom h
              have hle := gathers_le_inMemory h
              have hwritten : nightWritev storage header c = (.bytes header.size, { c with
                  wire := c.wire ++ (entryBytes storage header.iovs).take header.size
                  results := [] }) := by
                rw [nightWritev, hresults]
                rfl
              have hlength : ((entryBytes storage header.iovs).take header.size).length =
                  header.size := by
                have hall := Nat.le_trans hle (inMemory_le (b :: chain))
                rw [take_entries h (Nat.le_refl _), List.length_take, length_bytesOf,
                  Nat.min_eq_left hall]
              have hleft := inMemory_rest hle
              have hfile' := file_rest hle hfile
              have hgoes : sendRound storage limit l (b :: chain) c =
                  .ok (⟨l.send + header.size, .bytes header.size, header.size⟩,
                    (nightChainUpdateSent (b :: chain) header.size).2,
                    { c with
                      sent := c.sent + header.size
                      wire := c.wire ++ (entryBytes storage header.iovs).take header.size
                      results := [] }) := by
                have hrest : ¬ (limit ≤ l.send + header.size ∨
                    (nightChainUpdateSent (b :: chain) header.size).2 = []) := by
                  rintro (hreached | hnil)
                  · omega
                  · obtain ⟨b', hb', -⟩ := hfile'
                    rw [hnil] at hb'
                    cases hb'
                rw [hround, hwritten]
                exact if_neg hrest
              rw [sendLoop, hgoes] at hloop
              refine ih (sendable_rest hchain _) hfile' ?_ hpos rfl ?_ hloop
              · change l.send + header.size + _ < limit
                omega
              · change (c.wire ++ _).length = c.sent + header.size
                rw [List.length_append, hlength, hcount]

/-- The chain is sent, whatever the kernel answers and the locals hold, just where there is no
file buffer before the limit. -/
theorem nightLinuxSendfileChain_sends_iff (storage : Storage) (pageSize : ℕ) (limit : BitVec 64)
    {chain : List Buf} (hchain : ∀ b ∈ chain, Sendable b) :
    (∀ (c : Conn) (stack : Written × ℕ), ∃ fuel ended c',
        nightLinuxSendfileChain storage pageSize fuel stack chain limit c = some (ended, c') ∧
          Sends storage chain c ended c') ↔
      (∀ b ∈ chain, b.inFile = false) ∨
        effectiveLimit pageSize limit ≤ chainSize (inMemory chain) := by
  constructor
  · intro hall
    by_contra hunsafe
    rw [not_or] at hunsafe
    obtain ⟨hfile, hlimit⟩ := hunsafe
    have hfile' : ∃ b ∈ chain, b.inFile = true := by
      by_contra hnone
      apply hfile
      intro b hb
      cases hb' : b.inFile with
      | false => rfl
      | true => exact absurd ⟨b, hb, hb'⟩ hnone
    obtain ⟨fuel, ended, c', hrun, count, hcount, hsent, hwire, -⟩ :=
      hall ⟨0, true, false, [], []⟩ (.again, 1)
    have hbelow : 0 + chainSize (inMemory chain) < effectiveLimit pageSize limit := by omega
    have hless := sendLoop_file storage hchain hfile' hbelow (Nat.zero_lt_one) rfl rfl hrun
    change c'.sent = 0 + count at hsent
    rw [hwire, hsent, List.nil_append, List.length_take, length_bytesOf, Nat.min_eq_left hcount]
      at hless
    omega
  · intro hsafe c stack
    cases hready : c.ready with
    | false =>
        refine ⟨0, .chain chain, c, ?_, 0, Nat.zero_le _, rfl, (List.append_nil _).symm, rfl⟩
        rw [nightLinuxSendfileChain, hready]
        rfl
    | true =>
        have hsafe' : Safe (effectiveLimit pageSize limit) 0 chain := by
          rw [Safe, Nat.zero_add]
          exact hsafe
        obtain ⟨ended, c', hloop, hsends⟩ := sendLoop_sends storage ⟨0, stack.1, stack.2⟩ hchain
          hsafe' c (Nat.lt_succ_self _)
        refine ⟨(effectiveLimit pageSize limit - 0).succ, ended, c', ?_, hsends⟩
        rw [nightLinuxSendfileChain, hready]
        exact hloop

theorem no_memory : (0 : ℕ) ≤ 0 := Nat.le_refl 0

/-- Three bytes of a file. -/
def fileBuf : Buf := ⟨0, 0, 0, 1, 0, 3, true, 0, no_memory, Nat.zero_le 3⟩

theorem sendable_fileBuf : ∀ b ∈ [fileBuf], Sendable b := by
  intro b hb
  rw [List.mem_singleton.mp hb]
  exact ⟨by decide, nofun⟩

/-- Up to the limit of one byte, a file behind five bytes in memory is not in reach. -/
theorem nightLinuxSendfileChain_sends_iff_limit :
    (∀ (c : Conn) (stack : Written × ℕ), ∃ fuel ended c',
        nightLinuxSendfileChain ⟨fun _ => 7, fun _ _ => 7⟩ 4096 fuel stack
            [⟨100, 100, 105, 0, 0, 0, false, 0, by decide, by decide⟩, fileBuf] 1 c =
          some (ended, c') ∧
        Sends ⟨fun _ => 7, fun _ _ => 7⟩
          [⟨100, 100, 105, 0, 0, 0, false, 0, by decide, by decide⟩, fileBuf] c ended c') ↔
      (∀ b ∈ [⟨100, 100, 105, 0, 0, 0, false, 0, by decide, by decide⟩, fileBuf],
          b.inFile = false) ∨
        effectiveLimit 4096 1 ≤ chainSize (inMemory
          [⟨100, 100, 105, 0, 0, 0, false, 0, by decide, by decide⟩, fileBuf]) := by
  apply nightLinuxSendfileChain_sends_iff
  refine List.forall_mem_cons.mpr ⟨⟨by decide, fun _ => ?_⟩, sendable_fileBuf⟩
  exact Nat.succ_ne_zero 99

/-- For a file nothing is sent, and what is counted was on the stack. -/
theorem not_sends_fileBuf :
    ¬ ∀ (storage : Storage) (pageSize : ℕ) (limit : BitVec 64) (chain : List Buf) (c : Conn)
      (stack : Written × ℕ), (∀ b ∈ chain, Sendable b) → ∃ fuel ended c',
        nightLinuxSendfileChain storage pageSize fuel stack chain limit c = some (ended, c') ∧
          Sends storage chain c ended c' := by
  intro hall
  obtain ⟨fuel, ended, c', hrun, count, -, hsent, hwire, -⟩ :=
    hall ⟨fun _ => 7, fun _ _ => 7⟩ 4096 0 [fileBuf] ⟨0, true, false, [], []⟩ (.again, 1)
      sendable_fileBuf
  cases fuel with
  | zero => cases hrun
  | succ fuel =>
      have hround : nightLinuxSendfileChain ⟨fun _ => 7, fun _ _ => 7⟩ 4096 (fuel + 1) (.again, 1)
          [fileBuf] 0 ⟨0, true, false, [], []⟩ =
          some (.chain (nightChainUpdateSent [fileBuf] 1).2, ⟨1, false, false, [], []⟩) := rfl
      rw [hround] at hrun
      obtain ⟨-, rfl⟩ := Prod.mk.inj (Option.some.inj hrun)
      have hone : count = 1 := by
        change 1 = 0 + count at hsent
        omega
      subst hone
      cases hwire

end Night.Sendfile
