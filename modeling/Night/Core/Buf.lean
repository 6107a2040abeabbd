import Night.Core.Bytes
import Night.Lib.Regions

/-!
# Buffers

`night_buf_t` with `night_buf_size`, and `night_chain_update_sent`.  A chain is the list of
the buffers of its links.
-/

namespace Night.Bufs

open Night.Bytes
open Night.Regions

/-! ## Buffers -/

/-- A `night_buf_t`; a buffer in memory is from `pos` to `last`, one in a file from
`file_pos` to `file_last`. -/
structure Buf where
  start : ℕ
  pos : ℕ
  last : ℕ
  file : ℕ
  filePos : ℕ
  fileLast : ℕ
  inFile : Bool
  tag : ℕ
  pos_le : pos ≤ last
  filePos_le : filePos ≤ fileLast
  deriving DecidableEq

/-- The macro `night_buf_size`. -/
def nightBufSize (b : Buf) : ℕ :=
  if b.inFile then b.fileLast - b.filePos else b.last - b.pos

/-- What the buffers point to. -/
structure Storage where
  memory : ℕ → Byte
  file : ℕ → ℕ → Byte

variable (storage : Storage)

def Buf.bytes (b : Buf) : List Byte :=
  if b.inFile then region (storage.file b.file) b.filePos (nightBufSize b)
  else region storage.memory b.pos (nightBufSize b)

@[simp]
theorem Buf.length_bytes (b : Buf) : (b.bytes storage).length = nightBufSize b := by
  rw [Buf.bytes]
  split
  · exact length_region _ _ _
  · exact length_region _ _ _

/-- The bytes of a chain. -/
def bytesOf (chain : List Buf) : List Byte := chain.flatMap fun b => b.bytes storage

/-- The size of a chain. -/
def chainSize (chain : List Buf) : ℕ := (chain.map nightBufSize).sum

@[simp]
theorem bytesOf_nil : bytesOf storage [] = [] := rfl

@[simp]
theorem bytesOf_cons (b : Buf) (chain : List Buf) :
    bytesOf storage (b :: chain) = b.bytes storage ++ bytesOf storage chain := rfl

@[simp]
theorem chainSize_nil : chainSize [] = 0 := rfl

@[simp]
theorem chainSize_cons (b : Buf) (chain : List Buf) :
    chainSize (b :: chain) = nightBufSize b + chainSize chain := by
  rw [chainSize, chainSize, List.map_cons, List.sum_cons]

theorem bytesOf_append (chain chain' : List Buf) :
    bytesOf storage (chain ++ chain') = bytesOf storage chain ++ bytesOf storage chain' :=
  List.flatMap_append

theorem length_bytesOf (chain : List Buf) : (bytesOf storage chain).length = chainSize chain := by
  induction chain with
  | nil => rfl
  | cons b chain ih =>
      rw [bytesOf_cons, List.length_append, Buf.length_bytes, chainSize_cons, ih]

/-! ## `night_chain_update_sent` -/

/-- `file_pos = file_last`, or `pos = last`. -/
def Buf.finish (b : Buf) : Buf :=
  if b.inFile then { b with filePos := b.fileLast, filePos_le := Nat.le_refl _ }
  else { b with pos := b.last, pos_le := Nat.le_refl _ }

/-- `file_pos += sent`, or `pos += sent`. -/
def Buf.advance (b : Buf) (sent : ℕ) (hsent : sent < nightBufSize b) : Buf :=
  if h : b.inFile then
    { b with
      filePos := b.filePos + sent
      filePos_le := by
        rw [nightBufSize, if_pos h] at hsent
        omega }
  else
    { b with
      pos := b.pos + sent
      pos_le := by
        rw [nightBufSize, if_neg h] at hsent
        omega }

/-- The links before the one that is returned, and the chain from there on. -/
def nightChainUpdateSent : List Buf → ℕ → List Buf × List Buf
  | [], _ => ([], [])
  | b :: chain, sent =>
      if sent = 0 then ([], b :: chain)
      else if hsent : sent < nightBufSize b then ([], b.advance sent hsent :: chain)
      else
        let rest := nightChainUpdateSent chain (sent - nightBufSize b)
        (b.finish :: rest.1, rest.2)

@[simp]
theorem nightBufSize_finish (b : Buf) : nightBufSize b.finish = 0 := by
  rw [Buf.finish]
  split
  · rename_i h
    rw [nightBufSize, if_pos h]
    exact Nat.sub_self _
  · rename_i h
    rw [nightBufSize, if_neg h]
    exact Nat.sub_self _

theorem Buf.bytes_finish (b : Buf) : b.finish.bytes storage = [] := by
  rw [← List.length_eq_zero_iff, Buf.length_bytes, nightBufSize_finish]

theorem nightBufSize_advance (b : Buf) {sent : ℕ} (hsent : sent < nightBufSize b) :
    nightBufSize (b.advance sent hsent) = nightBufSize b - sent := by
  rw [Buf.advance]
  split
  · rename_i h
    rw [nightBufSize, if_pos h, nightBufSize, if_pos h]
    exact (Nat.sub_sub _ _ _).symm
  · rename_i h
    rw [nightBufSize, if_neg h, nightBufSize, if_neg h]
    exact (Nat.sub_sub _ _ _).symm

theorem Buf.bytes_advance (b : Buf) {sent : ℕ} (hsent : sent < nightBufSize b) :
    (b.advance sent hsent).bytes storage = (b.bytes storage).drop sent := by
  by_cases h : b.inFile = true
  · have hfile : (b.advance sent hsent).inFile = true := by
      rw [Buf.advance, dif_pos h]
      exact h
    have hpos : (b.advance sent hsent).filePos = b.filePos + sent := by
      rw [Buf.advance, dif_pos h]
    have hname : (b.advance sent hsent).file = b.file := by
      rw [Buf.advance, dif_pos h]
    rw [Buf.bytes, Buf.bytes, if_pos hfile, if_pos h, hpos, hname, nightBufSize_advance,
      drop_region]
  · have hfile : ¬ (b.advance sent hsent).inFile = true := by
      rw [Buf.advance, dif_neg h]
      exact h
    have hpos : (b.advance sent hsent).pos = b.pos + sent := by
      rw [Buf.advance, dif_neg h]
    rw [Buf.bytes, Buf.bytes, if_neg hfile, if_neg h, hpos, nightBufSize_advance, drop_region]

/-- Two steps in one buffer. -/
theorem Buf.advance_advance (b : Buf) {sent sent' : ℕ} (hsent : sent < nightBufSize b)
    (hsent' : sent' < nightBufSize (b.advance sent hsent)) (hboth : sent + sent' < nightBufSize b) :
    (b.advance sent hsent).advance sent' hsent' = b.advance (sent + sent') hboth := by
  by_cases h : b.inFile = true
  · simp only [Buf.advance, dif_pos h, Nat.add_assoc]
  · simp only [Buf.advance, dif_neg h, Nat.add_assoc]

theorem Buf.finish_advance (b : Buf) {sent : ℕ} (hsent : sent < nightBufSize b) :
    (b.advance sent hsent).finish = b.finish := by
  by_cases h : b.inFile = true
  · simp only [Buf.advance, Buf.finish, dif_pos h, if_pos h]
  · simp only [Buf.advance, Buf.finish, dif_neg h, if_neg h]

/-- Sent bytes may be reported in parts. -/
theorem nightChainUpdateSent_add (chain : List Buf) (sent sent' : ℕ) :
    nightChainUpdateSent chain (sent + sent') =
      ((nightChainUpdateSent chain sent).1 ++
          (nightChainUpdateSent (nightChainUpdateSent chain sent).2 sent').1,
        (nightChainUpdateSent (nightChainUpdateSent chain sent).2 sent').2) := by
  induction chain generalizing sent with
  | nil => rfl
  | cons b chain ih =>
      by_cases hzero : sent = 0
      · subst hzero
        rw [Nat.zero_add]
        rfl
      · have hsum : sent + sent' ≠ 0 := by omega
        by_cases hsent : sent < nightBufSize b
        · have hfirst : nightChainUpdateSent (b :: chain) sent =
              ([], b.advance sent hsent :: chain) := by
            rw [nightChainUpdateSent, if_neg hzero, dif_pos hsent]
          have hleft := nightBufSize_advance b hsent
          rw [hfirst, nightChainUpdateSent, if_neg hsum, nightChainUpdateSent]
          by_cases hzero' : sent' = 0
          · subst hzero'
            rw [if_pos rfl]
            exact dif_pos hsent
          · rw [if_neg hzero']
            by_cases hboth : sent + sent' < nightBufSize b
            · have hrest : sent' < nightBufSize (b.advance sent hsent) := by omega
              rw [dif_pos hboth, dif_pos hrest, Buf.advance_advance b hsent hrest hboth]
              rfl
            · have hrest : ¬ sent' < nightBufSize (b.advance sent hsent) := by omega
              have hover : sent' - (nightBufSize b - sent) = sent + sent' - nightBufSize b := by
                omega
              rw [dif_neg hboth, dif_neg hrest, Buf.finish_advance, hleft, hover]
              rfl
        · have hboth : ¬ sent + sent' < nightBufSize b := by omega
          have hover : sent + sent' - nightBufSize b = sent - nightBufSize b + sent' := by omega
          rw [nightChainUpdateSent, if_neg hsum, dif_neg hboth, nightChainUpdateSent, if_neg hzero,
            dif_neg hsent, hover, ih]
          rfl

/-- What a chain becomes when bytes were sent: the links before the returned one, which has
bytes left or starts where the sent bytes end, and no earlier one does. -/
structure Updated (chain : List Buf) (sent : ℕ) (result : List Buf × List Buf) : Prop where
  bytes : bytesOf storage (result.1 ++ result.2) = (bytesOf storage chain).drop sent
  links : result.1.length + result.2.length = chain.length
  before : ∀ b ∈ result.1, nightBufSize b = 0
  first : ∀ count < result.1.length, chainSize (chain.take count) < sent
  returned : ∀ b ∈ result.2.head?,
    0 < nightBufSize b ∨ chainSize (chain.take result.1.length) = sent

theorem nightChainUpdateSent_updated (chain : List Buf) (sent : ℕ) :
    Updated storage chain sent (nightChainUpdateSent chain sent) := by
  induction chain generalizing sent with
  | nil =>
      exact ⟨List.drop_nil.symm, rfl, nofun, nofun, nofun⟩
  | cons b chain ih =>
      rw [nightChainUpdateSent]
      by_cases hzero : sent = 0
      · rw [if_pos hzero, hzero]
        exact ⟨rfl, Nat.zero_add _, nofun, nofun, fun _ _ => Or.inr rfl⟩
      · rw [if_neg hzero]
        by_cases hsent : sent < nightBufSize b
        · rw [dif_pos hsent]
          refine ⟨?_, Nat.zero_add _, nofun, nofun, ?_⟩
          · rw [List.nil_append, bytesOf_cons, bytesOf_cons, Buf.bytes_advance,
              List.drop_append_of_le_length]
            rw [Buf.length_bytes]
            exact Nat.le_of_lt hsent
          · intro head hhead
            obtain rfl := Option.some.inj hhead
            left
            rw [nightBufSize_advance]
            omega
        · rw [dif_neg hsent]
          have hrest := ih (sent - nightBufSize b)
          refine ⟨?_, ?_, ?_, ?_, ?_⟩
          · have hgone : (b.bytes storage).drop sent = [] := by
              apply List.drop_of_length_le
              rw [Buf.length_bytes]
              omega
            rw [List.cons_append, bytesOf_cons, Buf.bytes_finish, List.nil_append, hrest.bytes,
              bytesOf_cons, List.drop_append, Buf.length_bytes, hgone, List.nil_append]
          · have hlinks := hrest.links
            simp only [List.length_cons]
            omega
          · intro x hx
            rcases List.mem_cons.mp hx with rfl | hx
            · exact nightBufSize_finish b
            · exact hrest.before x hx
          · intro count hcount
            cases count with
            | zero =>
                change 0 < sent
                omega
            | succ count =>
                have hfirst := hrest.first count (Nat.lt_of_succ_lt_succ hcount)
                rw [List.take_succ_cons, chainSize_cons]
                omega
          · intro head hhead
            rcases hrest.returned head hhead with hleft | hwhole
            · exact Or.inl hleft
            · right
              rw [List.length_cons, List.take_succ_cons, chainSize_cons, hwhole]
              omega

/-- The laws of the function. -/
theorem nightChainUpdateSent_spec (chain : List Buf) (sent : ℕ) :
    Updated storage chain sent (nightChainUpdateSent chain sent) ∧
      ∀ sent', nightChainUpdateSent chain (sent + sent') =
        ((nightChainUpdateSent chain sent).1 ++
            (nightChainUpdateSent (nightChainUpdateSent chain sent).2 sent').1,
          (nightChainUpdateSent (nightChainUpdateSent chain sent).2 sent').2) :=
  ⟨nightChainUpdateSent_updated storage chain sent, nightChainUpdateSent_add chain sent⟩

/-- A buffer of size zero right behind the sent bytes is returned, not skipped. -/
theorem nightChainUpdateSent_returns_special :
    ¬ ∀ (storage : Storage) (chain : List Buf) (sent : ℕ), sent ≤ chainSize chain →
      bytesOf storage ((nightChainUpdateSent chain sent).1 ++ (nightChainUpdateSent chain sent).2) =
          (bytesOf storage chain).drop sent ∧
        (∀ b ∈ (nightChainUpdateSent chain sent).1, nightBufSize b = 0) ∧
        (∀ b ∈ (nightChainUpdateSent chain sent).2.head?, 0 < nightBufSize b) ∧
        ∀ sent', nightChainUpdateSent chain (sent + sent') =
          ((nightChainUpdateSent chain sent).1 ++
              (nightChainUpdateSent (nightChainUpdateSent chain sent).2 sent').1,
            (nightChainUpdateSent (nightChainUpdateSent chain sent).2 sent').2) := by
  intro hall
  let memory : Buf := ⟨100, 100, 105, 0, 0, 0, false, 0, by decide, by decide⟩
  let special : Buf := ⟨0, 0, 0, 0, 0, 0, false, 0, by decide, by decide⟩
  obtain ⟨-, -, hreturned, -⟩ := hall ⟨fun _ => 0, fun _ _ => 0⟩ [memory, special] 5 (by decide)
  exact absurd (hreturned special rfl) (by decide)

end Night.Bufs
