import Night.Core.Buf

/-!
# `night_output_chain_to_iovec`

The buffers in memory at the front of a chain become the entries of an `iovec`, as far as
they fit.
-/

namespace Night.Writev

open Night.Bytes
open Night.Regions
open Night.Bufs

/-- A `struct iovec`. -/
structure Iovec where
  base : ℕ
  len : ℕ
  deriving DecidableEq, Repr

/-- A `night_iovec_t`; the entry that was made last is the first of the list. -/
structure Vec where
  iovs : List Iovec
  count : ℕ
  size : ℕ
  deriving DecidableEq, Repr

/-- `iov->iov_len += size`, where `iov` may be `NULL`. -/
def extend (size : ℕ) : List Iovec → Option (List Iovec)
  | [] => none
  | iov :: iovs => some ({ iov with len := iov.len + size } :: iovs)

/-- The loop from a link on; the result is `none` where it follows a null pointer. -/
def fill (nalloc limit : ℕ) : List Buf → ℕ → Vec → Option (Vec × List Buf)
  | [], _, vec => some (vec, [])
  | b :: chain, prev, vec =>
      if vec.size < limit then
        if b.inFile then some (vec, b :: chain)
        else
          let size := if b.last - b.pos > limit - vec.size then limit - vec.size
            else b.last - b.pos
          if prev = b.pos then
            match extend size vec.iovs with
            | none => none
            | some iovs =>
                fill nalloc limit chain (b.pos + size)
                  { vec with iovs := iovs, size := vec.size + size }
          else if vec.count = nalloc then some (vec, b :: chain)
          else
            fill nalloc limit chain (b.pos + size)
              ⟨⟨b.pos, size⟩ :: vec.iovs, vec.count + 1, vec.size + size⟩
      else some (vec, b :: chain)

/-- The entries, and the link from which on nothing is in them. -/
def nightOutputChainToIovec (nalloc : ℕ) (chain : List Buf) (limit : ℕ) :
    Option (Vec × List Buf) :=
  fill nalloc limit chain 0 ⟨[], 0, 0⟩

/-! ## Entries -/

variable (storage : Storage)

/-- What the entries point to. -/
def entryBytes (iovs : List Iovec) : List Byte :=
  iovs.reverse.flatMap fun iov => region storage.memory iov.base iov.len

theorem entryBytes_cons (iov : Iovec) (iovs : List Iovec) :
    entryBytes storage (iov :: iovs) =
      entryBytes storage iovs ++ region storage.memory iov.base iov.len := by
  rw [entryBytes, entryBytes, List.reverse_cons, List.flatMap_append, List.flatMap_singleton]

/-- Where the next byte behind the last entry is. -/
def endOf : List Iovec → Option ℕ
  | [] => none
  | iov :: _ => some (iov.base + iov.len)

/-- The entries count up to `nalloc`, and `size` is the size of what they point to. -/
structure Fits (nalloc limit : ℕ) (vec : Vec) : Prop where
  count : vec.count = vec.iovs.length
  nalloc_le : vec.count ≤ nalloc
  size : (vec.iovs.map Iovec.len).sum = vec.size
  limit_le : vec.size ≤ limit

/-- Why the loop ends at a link. -/
def Stops (nalloc limit : ℕ) (vec : Vec) : List Buf → Prop
  | [] => True
  | b :: _ => vec.size = limit ∨ b.inFile = true ∨
      (vec.count = nalloc ∧ endOf vec.iovs ≠ some b.pos)

/-- What the loop adds to the entries: the bytes of the links in front of the one at which it
ends, the last of which the limit may cut. -/
structure Filled (nalloc limit : ℕ) (chain : List Buf) (vec vec' : Vec) (rest : List Buf) :
    Prop where
  fits : Fits nalloc limit vec'
  covers : ∃ passed, chain = passed ++ rest ∧ (∀ b ∈ passed, b.inFile = false) ∧
    vec'.size = min limit (vec.size + chainSize passed) ∧
    vec'.count ≤ vec.count + passed.length ∧
    (∀ count < passed.length, vec.size + chainSize (passed.take count) < limit) ∧
    entryBytes storage vec'.iovs =
      entryBytes storage vec.iovs ++ (bytesOf storage passed).take (limit - vec.size)
  stops : Stops nalloc limit vec' rest

variable {storage} {nalloc limit : ℕ} {b : Buf} {chain rest : List Buf} {vec vec' : Vec}

theorem Filled.refl (hfits : Fits nalloc limit vec) (hstops : Stops nalloc limit vec chain) :
    Filled storage nalloc limit chain vec vec chain := by
  have hle := hfits.limit_le
  refine ⟨hfits, ⟨[], rfl, nofun, ?_, Nat.le_refl _, nofun, ?_⟩, hstops⟩
  · rw [chainSize_nil]
    omega
  · rw [bytesOf_nil, List.take_nil, List.append_nil]

/-- The last entry grows. -/
theorem Fits.join {iov : Iovec} {iovs : List Iovec} {size : ℕ} (hfits : Fits nalloc limit vec)
    (hiovs : vec.iovs = iov :: iovs) (hsize : vec.size + size ≤ limit) :
    Fits nalloc limit ⟨{ iov with len := iov.len + size } :: iovs, vec.count,
      vec.size + size⟩ where
  count := by
    have hcount := hfits.count
    rw [hiovs] at hcount
    exact hcount
  nalloc_le := hfits.nalloc_le
  size := by
    have hsum := hfits.size
    rw [hiovs, List.map_cons, List.sum_cons] at hsum
    rw [List.map_cons, List.sum_cons]
    change iov.len + size + _ = vec.size + size
    omega
  limit_le := hsize

/-- One more entry. -/
theorem Fits.push {base size : ℕ} (hfits : Fits nalloc limit vec) (hfull : vec.count ≠ nalloc)
    (hsize : vec.size + size ≤ limit) :
    Fits nalloc limit ⟨⟨base, size⟩ :: vec.iovs, vec.count + 1, vec.size + size⟩ where
  count := by
    rw [List.length_cons, hfits.count]
  nalloc_le := by
    have hle := hfits.nalloc_le
    change vec.count + 1 ≤ nalloc
    omega
  size := by
    rw [List.map_cons, List.sum_cons, hfits.size]
    exact Nat.add_comm _ _
  limit_le := hsize

/-- A link whose bytes were added, up to the limit. -/
theorem Filled.cons {vec₁ : Vec} (hfile : b.inFile = false) (hroom : vec.size < limit)
    (hsize : vec₁.size = vec.size + min (nightBufSize b) (limit - vec.size))
    (hcount : vec₁.count ≤ vec.count + 1)
    (hbytes : entryBytes storage vec₁.iovs =
      entryBytes storage vec.iovs ++ (b.bytes storage).take (limit - vec.size))
    (h : Filled storage nalloc limit chain vec₁ vec' rest) :
    Filled storage nalloc limit (b :: chain) vec vec' rest := by
  obtain ⟨passed, heq, hmemory, hwhole, hfew, hbelow, hentries⟩ := h.covers
  refine ⟨h.fits, ⟨b :: passed, ?_, ?_, ?_, ?_, ?_, ?_⟩, h.stops⟩
  · rw [heq, List.cons_append]
  · exact List.forall_mem_cons.mpr ⟨hfile, hmemory⟩
  · rw [chainSize_cons, hwhole, hsize]
    omega
  · rw [List.length_cons]
    omega
  · intro count hcount
    cases count with
    | zero => exact hroom
    | succ count =>
        have hrest := hbelow count (Nat.lt_of_succ_lt_succ hcount)
        rw [List.take_succ_cons, chainSize_cons]
        omega
  · rw [hentries, hbytes, List.append_assoc, bytesOf_cons, List.take_append, Buf.length_bytes,
      hsize]
    congr 3
    omega

theorem bytes_memory (storage : Storage) (hfile : b.inFile = false) :
    b.bytes storage = region storage.memory b.pos (b.last - b.pos) := by
  rw [Buf.bytes, nightBufSize, hfile]
  rfl

theorem fill_spec (storage : Storage) {prev : ℕ} (hfits : Fits nalloc limit vec)
    (hprev : ∀ iov ∈ vec.iovs.head?, prev = iov.base + iov.len)
    (hnull : vec.iovs = [] → ∀ b ∈ chain.head?, b.inFile = false → b.pos ≠ prev) :
    ∃ vec' rest, fill nalloc limit chain prev vec = some (vec', rest) ∧
      Filled storage nalloc limit chain vec vec' rest := by
  induction chain generalizing prev vec with
  | nil => exact ⟨vec, [], rfl, Filled.refl hfits trivial⟩
  | cons b chain ih =>
      rw [fill]
      by_cases hroom : vec.size < limit
      · rw [if_pos hroom]
        by_cases hfile : b.inFile = true
        · rw [if_pos hfile]
          exact ⟨vec, b :: chain, rfl, Filled.refl hfits (Or.inr (Or.inl hfile))⟩
        · rw [if_neg hfile]
          have hmemory : b.inFile = false := Bool.eq_false_iff.mpr hfile
          have hbuf : nightBufSize b = b.last - b.pos := by
            rw [nightBufSize, hmemory]
            rfl
          generalize hsize : (if b.last - b.pos > limit - vec.size then limit - vec.size
            else b.last - b.pos) = size
          have hmin : size = min (nightBufSize b) (limit - vec.size) := by
            rw [hbuf, ← hsize]
            split <;> omega
          have hle : vec.size + size ≤ limit := by omega
          have hadded : region storage.memory b.pos size =
              (b.bytes storage).take (limit - vec.size) := by
            rw [bytes_memory storage hmemory, take_region, hmin, hbuf, Nat.min_comm]
          by_cases hjoin : prev = b.pos
          · -- the buffer touches the last entry
            rw [if_pos hjoin]
            cases hiovs : vec.iovs with
            | nil => exact absurd hjoin.symm (hnull hiovs b rfl hmemory)
            | cons iov iovs =>
                have hend : b.pos = iov.base + iov.len := by
                  rw [← hjoin]
                  exact hprev iov (by rw [hiovs]; rfl)
                have hprev' : ∀ last ∈ some { iov with len := iov.len + size },
                    b.pos + size = last.base + last.len := by
                  rintro _ ⟨⟩
                  change b.pos + size = iov.base + (iov.len + size)
                  omega
                obtain ⟨vec', rest, hrun, hfilled⟩ := ih (hfits.join hiovs hle) hprev' nofun
                refine ⟨vec', rest, hrun, hfilled.cons hmemory hroom ?_ ?_ ?_⟩
                · change vec.size + size = _
                  rw [hmin]
                · exact Nat.le_succ vec.count
                · rw [entryBytes_cons, hiovs, entryBytes_cons, List.append_assoc, ← hadded, hend,
                    region_append]
          · rw [if_neg hjoin]
            by_cases hfull : vec.count = nalloc
            · rw [if_pos hfull]
              refine ⟨vec, b :: chain, rfl, Filled.refl hfits (Or.inr (Or.inr ⟨hfull, ?_⟩))⟩
              cases hiovs : vec.iovs with
              | nil => exact nofun
              | cons iov iovs =>
                  intro heq
                  have hlast := hprev iov (by rw [hiovs]; rfl)
                  exact hjoin (hlast.trans (Option.some.inj heq))
            · rw [if_neg hfull]
              have hprev' : ∀ last ∈ some (⟨b.pos, size⟩ : Iovec),
                  b.pos + size = last.base + last.len := by
                rintro _ ⟨⟩
                rfl
              obtain ⟨vec', rest, hrun, hfilled⟩ := ih (hfits.push hfull hle) hprev' nofun
              refine ⟨vec', rest, hrun, hfilled.cons hmemory hroom ?_ ?_ ?_⟩
              · change vec.size + size = _
                rw [hmin]
              · exact Nat.le_refl (vec.count + 1)
              · rw [entryBytes_cons, ← hadded]
      · rw [if_neg hroom]
        have hfull : vec.size = limit := Nat.le_antisymm hfits.limit_le (Nat.not_lt.mp hroom)
        exact ⟨vec, b :: chain, rfl, Filled.refl hfits (Or.inl hfull)⟩

/-! ## The function -/

/-- What the entries of a chain hold: the links in front of the returned one up to the limit,
which cuts no link but the last of them. -/
structure Gathers (storage : Storage) (nalloc limit : ℕ) (chain : List Buf) (vec : Vec)
    (rest : List Buf) : Prop where
  fits : Fits nalloc limit vec
  bytes : entryBytes storage vec.iovs = (bytesOf storage chain).take vec.size
  covers : ∃ passed, chain = passed ++ rest ∧ (∀ b ∈ passed, b.inFile = false) ∧
    vec.size = min limit (chainSize passed) ∧ vec.count ≤ passed.length ∧
    ∀ count < passed.length, chainSize (passed.take count) < limit
  stops : Stops nalloc limit vec rest

/-- With a first buffer that is not at a null pointer. -/
theorem nightOutputChainToIovec_gathers (storage : Storage) (nalloc limit : ℕ) {chain : List Buf}
    (hnull : ∀ b ∈ chain.head?, b.inFile = false → b.pos ≠ 0) :
    ∃ vec rest, nightOutputChainToIovec nalloc chain limit = some (vec, rest) ∧
      Gathers storage nalloc limit chain vec rest := by
  have hfits : Fits nalloc limit ⟨[], 0, 0⟩ := ⟨rfl, Nat.zero_le _, rfl, Nat.zero_le _⟩
  obtain ⟨vec, rest, hrun, hfilled⟩ := fill_spec storage hfits nofun fun _ => hnull
  obtain ⟨passed, heq, hmemory, hsize, hfew, hbelow, hentries⟩ := hfilled.covers
  simp only [Nat.zero_add] at hsize hfew hbelow
  refine ⟨vec, rest, hrun, hfilled.fits, ?_, ⟨passed, heq, hmemory, hsize, hfew, hbelow⟩,
    hfilled.stops⟩
  have hprefix : (bytesOf storage chain).take (chainSize passed) = bytesOf storage passed := by
    rw [heq, bytesOf_append]
    exact List.take_left' (length_bytesOf storage passed)
  rw [hentries, hsize, ← List.take_take, hprefix]
  rfl

/-- Two buffers that touch, and a limit in the second one. -/
theorem nightOutputChainToIovec_gathers_cut :
    ∃ vec rest, nightOutputChainToIovec 64
        [⟨100, 100, 105, 0, 0, 0, false, 0, by decide, by decide⟩,
          ⟨100, 105, 110, 0, 0, 0, false, 0, by decide, by decide⟩] 7 = some (vec, rest) ∧
      Gathers ⟨fun _ => 0, fun _ _ => 0⟩ 64 7
        [⟨100, 100, 105, 0, 0, 0, false, 0, by decide, by decide⟩,
          ⟨100, 105, 110, 0, 0, 0, false, 0, by decide, by decide⟩] vec rest := by
  apply nightOutputChainToIovec_gathers
  rintro _ ⟨⟩ -
  decide

/-- The link in which the limit lies is passed although its bytes are not all in the
entries. -/
theorem not_nightOutputChainToIovec_covers :
    ¬ ∀ (storage : Storage) (nalloc limit : ℕ) (chain : List Buf),
      (∀ b ∈ chain, b.inFile = false) →
      ∃ vec rest passed, nightOutputChainToIovec nalloc chain limit = some (vec, rest) ∧
        Fits nalloc limit vec ∧
        entryBytes storage vec.iovs = (bytesOf storage chain).take vec.size ∧
        chain = passed ++ rest ∧ chainSize passed ≤ vec.size ∧
        Stops nalloc limit vec rest := by
  intro hall
  let b : Buf := ⟨100, 100, 110, 0, 0, 0, false, 0, by decide, by decide⟩
  obtain ⟨vec, rest, passed, hrun, -, -, heq, hcovers, -⟩ :=
    hall ⟨fun _ => 0, fun _ _ => 0⟩ 64 5 [b] (by decide)
  have hcut : nightOutputChainToIovec 64 [b] 5 = some (⟨[⟨100, 5⟩], 1, 5⟩, []) := rfl
  rw [hcut, Option.some.injEq, Prod.mk.injEq] at hrun
  rw [← hrun.2, List.append_nil] at heq
  rw [← heq, ← hrun.1] at hcovers
  exact absurd hcovers (by decide)

end Night.Writev
