import Night.Core.Buf
import Night.Http.WriteFilter

/-!
# Sent buffers in the heap

The filter calls `night_chain_update_sent` on links in a heap, with buffers that are their
bytes.  With `pos` and `last` in the buffers, and the chain as a list, it does the same.
-/

namespace Night.WriteFilterBufs

open Night.Chains
open Night.WriteFilter (Buf State nightBufSize nightChainUpdateSent)

/-- A buffer that is its bytes for one with positions. -/
structure Stands (storage : Bufs.Storage) (b : Buf) (b' : Bufs.Buf) : Prop where
  bytes : b.bytes = b'.bytes storage
  inFile : b.inFile = b'.inFile

/-- The links have the buffers of a chain. -/
def Hold (storage : Bufs.Storage) (s : State) (cells : List ℕ) (chain : List Bufs.Buf) : Prop :=
  List.Forall₂ (fun cl b => Stands storage (s.buf (s.linkBuf cl)) b) cells chain

/-- The links before the returned one and those from there on, with the buffers of the two
parts of a chain; nothing but the buffers of the links is written. -/
structure Holds (storage : Bufs.Storage) (s : State) (cells : List ℕ)
    (parts : List Bufs.Buf × List Bufs.Buf) (s' : State) (cl : Option ℕ) : Prop where
  split : ∃ before after, cells = before ++ after ∧ Chain s.next cl after ∧
    Hold storage s' before parts.1 ∧ Hold storage s' after parts.2
  next : s'.next = s.next
  linkBuf : s'.linkBuf = s.linkBuf
  others : ∀ r, r ∉ cells.map s.linkBuf → s'.buf r = s.buf r

variable {storage : Bufs.Storage} {s s' : State} {cells : List ℕ} {chain : List Bufs.Buf}
  {head : Option ℕ} {b : Buf} {b' : Bufs.Buf}

theorem Stands.size (hstands : Stands storage b b') : nightBufSize b = Bufs.nightBufSize b' := by
  rw [nightBufSize, hstands.bytes, Bufs.Buf.length_bytes]

theorem Stands.finish (hstands : Stands storage b b') :
    Stands storage (b.advance (nightBufSize b)) b'.finish where
  bytes := by
    rw [Bufs.Buf.bytes_finish]
    exact List.drop_length
  inFile := by
    rw [Bufs.Buf.finish]
    split <;> exact hstands.inFile

theorem Stands.advance (hstands : Stands storage b b') {sent : ℕ}
    (hsent : sent < Bufs.nightBufSize b') :
    Stands storage (b.advance sent) (b'.advance sent hsent) where
  bytes := by
    rw [Bufs.Buf.bytes_advance, ← hstands.bytes]
    rfl
  inFile := by
    rw [Bufs.Buf.advance]
    split <;> exact hstands.inFile

/-- Buffers that are not written stay as they are. -/
theorem Hold.congr (hhold : Hold storage s cells chain) (hlinkBuf : s'.linkBuf = s.linkBuf)
    (hbuf : ∀ cl ∈ cells, s'.buf (s.linkBuf cl) = s.buf (s.linkBuf cl)) :
    Hold storage s' cells chain := by
  induction hhold with
  | nil => exact List.Forall₂.nil
  | @cons cl b cells chain hstands _ ih =>
    obtain ⟨hcl, hcells⟩ := List.forall_mem_cons.mp hbuf
    refine List.Forall₂.cons ?_ (ih hcells)
    rw [hlinkBuf, hcl]
    exact hstands

/-- The buffer of a link is written. -/
def setBuf (cl : ℕ) (value : Buf) (s : State) : State :=
  { s with buf := Function.update s.buf (s.linkBuf cl) value }

theorem setBuf_self (cl : ℕ) (value : Buf) (s : State) :
    (setBuf cl value s).buf (s.linkBuf cl) = value := Function.update_self _ _ _

theorem setBuf_of_ne {cl r : ℕ} (hr : r ≠ s.linkBuf cl) (value : Buf) :
    (setBuf cl value s).buf r = s.buf r := Function.update_of_ne hr _ _

theorem Hold.setBuf {cl : ℕ} (hhold : Hold storage s cells chain)
    (hnew : s.linkBuf cl ∉ cells.map s.linkBuf) (value : Buf) :
    Hold storage (setBuf cl value s) cells chain := by
  refine hhold.congr ?_ ?_
  · rfl
  · intro other hother
    exact setBuf_of_ne (fun heq => hnew (heq ▸ List.mem_map_of_mem hother)) value

/-- On links with buffers of their own the function does what it does on the chain. -/
theorem nightChainUpdateSent_holds (hchain : Chain s.next head cells)
    (hdistinct : (cells.map s.linkBuf).Nodup) (hhold : Hold storage s cells chain) {fuel : ℕ}
    (hfuel : cells.length ≤ fuel) (sent : ℕ) :
    ∃ s' cl, nightChainUpdateSent fuel s head sent = some (s', cl) ∧
      Holds storage s cells (Bufs.nightChainUpdateSent chain sent) s' cl := by
  induction cells generalizing s head chain fuel sent with
  | nil =>
    cases hhold
    cases hchain
    refine ⟨s, none, by cases fuel <;> rfl, ⟨⟨[], [], rfl, rfl, ?_, ?_⟩, rfl, rfl, fun _ _ => rfl⟩⟩
    · exact List.Forall₂.nil
    · exact List.Forall₂.nil
  | cons cl cells ih =>
    obtain ⟨rfl, hrest⟩ := hchain
    cases hhold with
    | @cons _ b _ chain hstands hhold =>
      rw [List.map_cons, List.nodup_cons] at hdistinct
      obtain ⟨fuel, rfl⟩ : ∃ rest, fuel = rest + 1 := by
        cases fuel with
        | zero => exact absurd hfuel (Nat.not_succ_le_zero _)
        | succ fuel => exact ⟨fuel, rfl⟩
      have hhold' : Hold storage s cells chain := hhold
      rw [nightChainUpdateSent, Bufs.nightChainUpdateSent]
      by_cases hzero : sent = 0
      · rw [if_pos hzero, if_pos hzero]
        refine ⟨s, some cl, rfl, ⟨⟨[], cl :: cells, rfl, ⟨rfl, hrest⟩, ?_, ?_⟩, rfl, rfl,
          fun _ _ => rfl⟩⟩
        · exact List.Forall₂.nil
        · exact List.Forall₂.cons hstands hhold
      · rw [if_neg hzero, if_neg hzero]
        simp only [hstands.size]
        have hothers : ∀ value r, r ∉ (cl :: cells).map s.linkBuf →
            (setBuf cl value s).buf r = s.buf r := by
          intro value r hr
          rw [List.map_cons, List.mem_cons, not_or] at hr
          exact setBuf_of_ne hr.1 value
        by_cases hsent : sent < Bufs.nightBufSize b
        · rw [if_neg (Nat.not_le.mpr hsent), dif_pos hsent]
          refine ⟨setBuf cl ((s.buf (s.linkBuf cl)).advance sent) s, some cl, rfl,
            ⟨⟨[], cl :: cells, rfl, ⟨rfl, hrest⟩, ?_, ?_⟩, rfl, rfl, hothers _⟩⟩
          · exact List.Forall₂.nil
          · refine List.Forall₂.cons ?_ (hhold'.setBuf hdistinct.1 _)
            show Stands storage ((setBuf cl _ s).buf (s.linkBuf cl)) _
            rw [setBuf_self]
            exact hstands.advance hsent
        · rw [if_pos (Nat.not_lt.mp hsent), dif_neg hsent]
          obtain ⟨s', cl', hcall, ⟨before, after, rfl, hafter, hbefore, hleft⟩, hnext, hlinkBuf,
            hkept⟩ := ih (s := setBuf cl ((s.buf (s.linkBuf cl)).advance (Bufs.nightBufSize b)) s)
              hrest hdistinct.2 (hhold'.setBuf hdistinct.1 _) (Nat.le_of_succ_le_succ hfuel)
              (sent - Bufs.nightBufSize b)
          refine ⟨s', cl', hcall, ⟨⟨cl :: before, after, rfl, hafter, ?_, hleft⟩, hnext, hlinkBuf,
            ?_⟩⟩
          · refine List.Forall₂.cons ?_ hbefore
            have hfirst : s'.buf (s'.linkBuf cl) =
                (s.buf (s.linkBuf cl)).advance (nightBufSize (s.buf (s.linkBuf cl))) := by
              rw [hlinkBuf, hstands.size]
              exact (hkept _ hdistinct.1).trans (setBuf_self _ _ _)
            rw [hfirst]
            exact hstands.finish
          · intro r hr
            rw [hkept r fun hin => hr (List.mem_cons_of_mem _ hin)]
            exact hothers _ r hr

end Night.WriteFilterBufs
