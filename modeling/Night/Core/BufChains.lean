import Mathlib.Data.List.Perm.Basic
import Night.Core.Buf
import Night.Lib.Chains

/-!
# `night_chain_update_chains`

The output goes behind the busy links, and the links that are done with go from there to the
free list or to the pool.  The links live in a heap.
-/

namespace Night.BufChains

open Night.Bufs
open Night.Chains

/-! ## Model -/

/-- The links with their buffers, `p->chain`, and `*free`, `*busy` and `*out`. -/
structure State where
  next : ℕ → Option ℕ
  linkBuf : ℕ → ℕ
  buf : ℕ → Buf
  poolChain : Option ℕ
  free : Option ℕ
  busy : Option ℕ
  out : Option ℕ

/-- The buffer of a link. -/
def State.bufOf (s : State) (cl : ℕ) : Buf := s.buf (s.linkBuf cl)

/-- The macro `night_free_chain`. -/
def nightFreeChain (cl : ℕ) (s : State) : State :=
  { s with next := Function.update s.next cl s.poolChain, poolChain := some cl }

/-- `for (cl = *busy; cl->next; cl = cl->next)` -/
def lastLink (s : State) : ℕ → ℕ → Option ℕ
  | 0, _ => none
  | fuel + 1, cl =>
      match s.next cl with
      | none => some cl
      | some cl' => lastLink s fuel cl'

/-- The links of `*out` go behind those of `*busy`. -/
def moveOut (fuel : ℕ) (s : State) : Option State :=
  if s.out.isSome then
    match s.busy with
    | none => some { s with busy := s.out, out := none }
    | some head => do
        let cl ← lastLink s fuel head
        some { s with next := Function.update s.next cl s.out, out := none }
  else some s

/-- `pos = start; last = start;` -/
def Buf.reset (b : Buf) : Buf :=
  { b with pos := b.start, last := b.start, pos_le := Nat.le_refl _ }

/-- The loop over `*busy`. -/
def sweepBusy (tag : ℕ) : ℕ → State → Option State
  | fuel, s =>
      match s.busy with
      | none => some s
      | some cl =>
          match fuel with
          | 0 => none
          | fuel + 1 =>
              if (s.bufOf cl).tag ≠ tag then
                sweepBusy tag fuel (nightFreeChain cl { s with busy := s.next cl })
              else if nightBufSize (s.bufOf cl) ≠ 0 then some s
              else
                let s := { s with
                  buf := Function.update s.buf (s.linkBuf cl) (Buf.reset (s.bufOf cl)) }
                let s := { s with busy := s.next cl }
                sweepBusy tag fuel { s with
                  next := Function.update s.next cl s.free
                  free := some cl }

def nightChainUpdateChains (fuel tag : ℕ) (s : State) : Option State := do
  let s ← moveOut fuel s
  sweepBusy tag fuel s

/-! ## Links -/

/-- Who holds which links: no link has two owners. -/
structure Owns (s : State) (free busy out pool : List ℕ) : Prop where
  freeChain : Chain s.next s.free free
  busyChain : Chain s.next s.busy busy
  outChain : Chain s.next s.out out
  poolChain : Chain s.next s.poolChain pool
  nodup : (free ++ (busy ++ (out ++ pool))).Nodup

variable {s s' : State} {free busy out pool : List ℕ} {tag cl : ℕ}

theorem lastLink_eq {head : ℕ} {rest : List ℕ} {last : ℕ}
    (hchain : Chain s.next (some head) (rest ++ [last])) {fuel : ℕ}
    (hfuel : rest.length < fuel) : lastLink s fuel head = some last := by
  induction fuel generalizing head rest with
  | zero => exact absurd hfuel (Nat.not_lt_zero _)
  | succ fuel ih =>
      cases rest with
      | nil =>
          obtain ⟨heq, hnext⟩ := hchain
          obtain rfl := Option.some.inj heq
          have hnone : s.next head = none := hnext
          rw [lastLink, hnone]
      | cons first rest =>
          obtain ⟨heq, hnext⟩ := hchain
          obtain rfl := Option.some.inj heq
          have hsome : ∃ head', s.next head = some head' := by
            rw [Chain.head_eq hnext]
            cases rest with
            | nil => exact ⟨last, rfl⟩
            | cons second rest => exact ⟨second, rfl⟩
          obtain ⟨head', hhead'⟩ := hsome
          rw [hhead'] at hnext
          rw [lastLink, hhead']
          exact ih hnext (Nat.lt_of_succ_lt_succ hfuel)

theorem moveOut_spec (h : Owns s free busy out pool) {fuel : ℕ} (hfuel : busy.length ≤ fuel) :
    ∃ s', moveOut fuel s = some s' ∧ Owns s' free (busy ++ out) [] pool ∧ s'.linkBuf = s.linkBuf ∧
      s'.buf = s.buf ∧ s'.out = none := by
  have hnodup : (free ++ (busy ++ out ++ ([] ++ pool))).Nodup := by
    rw [List.nil_append, List.append_assoc]
    exact h.nodup
  cases hout : s.out with
  | none =>
      have hnil : out = [] := by
        have hhead := h.outChain.head_eq
        rw [hout] at hhead
        exact List.head?_eq_none_iff.mp hhead.symm
      subst hnil
      refine ⟨s, if_neg (by rw [hout]; decide), ?_, rfl, rfl, hout⟩
      rw [List.append_nil] at hnodup ⊢
      exact ⟨h.freeChain, h.busyChain, hout, h.poolChain, hnodup⟩
  | some first =>
      have hsome : s.out.isSome = true := by rw [hout]; rfl
      rw [moveOut, if_pos hsome]
      rcases busy.eq_nil_or_concat' with rfl | ⟨before, last, rfl⟩
      · have hbusy : s.busy = none := h.busyChain
        rw [hbusy]
        exact ⟨_, rfl, ⟨h.freeChain, h.outChain, rfl, h.poolChain, hnodup⟩, rfl, rfl, rfl⟩
      · have hhead := h.busyChain.head_eq
        have hcons : ∃ head, (before ++ [last]).head? = some head := by
          cases before with
          | nil => exact ⟨last, rfl⟩
          | cons head before => exact ⟨head, rfl⟩
        obtain ⟨head, hhead'⟩ := hcons
        rw [hhead'] at hhead
        have hchain := h.busyChain
        rw [hhead] at hchain
        have hlength : before.length < fuel := by
          rw [List.length_append, List.length_singleton] at hfuel
          exact hfuel
        have hlast := lastLink_eq hchain hlength
        rw [hhead]
        have hparts := h.nodup
        simp only [List.nodup_append, List.mem_append, List.mem_singleton] at hparts
        refine ⟨{ s with next := Function.update s.next last s.out, out := none }, ?_,
          ⟨?_, ?_, rfl, ?_, hnodup⟩, rfl, rfl, rfl⟩
        · simp only [hlast, hhead, Option.bind_eq_bind, Option.bind_some]
        · apply h.freeChain.update
          intro hin
          exact hparts.2.2 last hin last (by simp) rfl
        · have hmoved : Segment (Function.update s.next last s.out) s.busy (before ++ [last])
              s.out := by
            apply h.busyChain.update_last
            intro hin
            exact hparts.2.1.1.2.2 last hin last rfl rfl
          refine segment_append.mpr ⟨s.out, hmoved, ?_⟩
          apply h.outChain.update
          intro hin
          exact hparts.2.1.2.2 last (Or.inr rfl) last (Or.inl hin) rfl
        · apply h.poolChain.update
          intro hin
          exact hparts.2.1.2.2 last (Or.inr rfl) last (Or.inr hin) rfl

/-! ## The sweep -/

/-- The loop ends at a link. -/
def State.stops (s : State) (tag cl : ℕ) : Bool :=
  (s.bufOf cl).tag = tag ∧ nightBufSize (s.bufOf cl) ≠ 0

def State.own (s : State) (tag cl : ℕ) : Bool := (s.bufOf cl).tag = tag

/-- The links in front of the one at which the loop ends. -/
def State.passed (s : State) (tag : ℕ) (links : List ℕ) : List ℕ :=
  links.takeWhile fun cl => !s.stops tag cl

def State.kept (s : State) (tag : ℕ) (links : List ℕ) : List ℕ :=
  links.dropWhile fun cl => !s.stops tag cl

/-- The passed links with the tag, which are freed, and the others. -/
def State.freed (s : State) (tag : ℕ) (links : List ℕ) : List ℕ :=
  (s.passed tag links).filter fun cl => s.own tag cl

def State.foreign (s : State) (tag : ℕ) (links : List ℕ) : List ℕ :=
  (s.passed tag links).filter fun cl => !s.own tag cl

theorem Buf.nightBufSize_reset {b : Buf} (hsize : nightBufSize b = 0) :
    nightBufSize (Buf.reset b) = 0 := by
  rw [nightBufSize] at hsize ⊢
  change (if b.inFile then b.fileLast - b.filePos else b.start - b.start) = 0
  split
  · rename_i hfile
    rwa [if_pos hfile] at hsize
  · exact Nat.sub_self _

/-- The links of a state have buffers of the same tags and sizes in another one. -/
structure SameKind (s s' : State) : Prop where
  linkBuf : s'.linkBuf = s.linkBuf
  tag : ∀ cl, (s'.bufOf cl).tag = (s.bufOf cl).tag
  size : ∀ cl, nightBufSize (s'.bufOf cl) = 0 ↔ nightBufSize (s.bufOf cl) = 0

theorem SameKind.stops (hsame : SameKind s s') (tag cl : ℕ) :
    s'.stops tag cl = s.stops tag cl := by
  simp only [State.stops, hsame.tag, ne_eq, hsame.size]

theorem SameKind.own (hsame : SameKind s s') (tag cl : ℕ) : s'.own tag cl = s.own tag cl := by
  rw [State.own, State.own, hsame.tag]

theorem SameKind.passed (hsame : SameKind s s') (tag : ℕ) (links : List ℕ) :
    s'.passed tag links = s.passed tag links := by
  simp only [State.passed, hsame.stops]

theorem SameKind.kept (hsame : SameKind s s') (tag : ℕ) (links : List ℕ) :
    s'.kept tag links = s.kept tag links := by
  simp only [State.kept, hsame.stops]

theorem SameKind.freed (hsame : SameKind s s') (tag : ℕ) (links : List ℕ) :
    s'.freed tag links = s.freed tag links := by
  simp only [State.freed, hsame.passed, hsame.own]

theorem SameKind.foreign (hsame : SameKind s s') (tag : ℕ) (links : List ℕ) :
    s'.foreign tag links = s.foreign tag links := by
  simp only [State.foreign, hsame.passed, hsame.own]

/-- The buffer of a link that is freed. -/
theorem sameKind_reset (hsize : nightBufSize (s.bufOf cl) = 0) (next : ℕ → Option ℕ)
    (free busy : Option ℕ) :
    SameKind s { s with
      next := next
      buf := Function.update s.buf (s.linkBuf cl) (Buf.reset (s.bufOf cl))
      free := free
      busy := busy } := by
  have hbuf : ∀ cl', (Function.update s.buf (s.linkBuf cl) (Buf.reset (s.bufOf cl)))
      (s.linkBuf cl') = s.bufOf cl' ∨
      (s.bufOf cl' = s.bufOf cl ∧ (Function.update s.buf (s.linkBuf cl)
        (Buf.reset (s.bufOf cl))) (s.linkBuf cl') = Buf.reset (s.bufOf cl)) := by
    intro cl'
    by_cases heq : s.linkBuf cl' = s.linkBuf cl
    · right
      rw [heq, Function.update_self]
      exact ⟨congrArg s.buf heq, rfl⟩
    · left
      exact Function.update_of_ne heq _ _
  refine ⟨rfl, ?_, ?_⟩
  · intro cl'
    change ((Function.update s.buf (s.linkBuf cl) (Buf.reset (s.bufOf cl))) (s.linkBuf cl')).tag = _
    rcases hbuf cl' with heq | ⟨hsame, heq⟩
    · rw [heq]
    · rw [heq, hsame]
      rfl
  · intro cl'
    change nightBufSize ((Function.update s.buf (s.linkBuf cl) (Buf.reset (s.bufOf cl)))
      (s.linkBuf cl')) = 0 ↔ _
    rcases hbuf cl' with heq | ⟨hsame, heq⟩
    · rw [heq]
    · rw [heq, hsame]
      exact iff_of_true (Buf.nightBufSize_reset hsize) hsize

/-- What the loop leaves of the links. -/
structure Swept (s : State) (tag : ℕ) (free links pool : List ℕ) (s' : State) : Prop where
  owns : Owns s' ((s.freed tag links).reverse ++ free) (s.kept tag links) []
    ((s.foreign tag links).reverse ++ pool)
  linkBuf : s'.linkBuf = s.linkBuf
  reset : ∀ cl ∈ s.freed tag links, s'.bufOf cl = Buf.reset (s.bufOf cl)
  others : ∀ b, b ∉ (s.freed tag links).map s.linkBuf → s'.buf b = s.buf b

theorem State.passed_cons (s : State) (tag cl : ℕ) (links : List ℕ) :
    s.passed tag (cl :: links) = if s.stops tag cl then [] else cl :: s.passed tag links := by
  rw [State.passed, List.takeWhile_cons]
  cases s.stops tag cl <;> rfl

theorem State.kept_cons (s : State) (tag cl : ℕ) (links : List ℕ) :
    s.kept tag (cl :: links) = if s.stops tag cl then cl :: links else s.kept tag links := by
  rw [State.kept, List.dropWhile_cons]
  cases s.stops tag cl <;> rfl

theorem State.freed_cons (s : State) (tag cl : ℕ) (links : List ℕ) :
    s.freed tag (cl :: links) =
      if s.stops tag cl then []
      else if s.own tag cl then cl :: s.freed tag links else s.freed tag links := by
  rw [State.freed, State.passed_cons]
  cases s.stops tag cl with
  | true => rfl
  | false => exact List.filter_cons

theorem State.foreign_cons (s : State) (tag cl : ℕ) (links : List ℕ) :
    s.foreign tag (cl :: links) =
      if s.stops tag cl then []
      else if s.own tag cl then s.foreign tag links else cl :: s.foreign tag links := by
  rw [State.foreign, State.passed_cons]
  cases s.stops tag cl with
  | true => rfl
  | false =>
      refine List.filter_cons.trans ?_
      cases s.own tag cl <;> rfl

/-- The loop ends at its first link. -/
theorem swept_stop (h : Owns s free (cl :: busy) [] pool) (hstops : s.stops tag cl = true) :
    Swept s tag free (cl :: busy) pool s := by
  have hfreed : s.freed tag (cl :: busy) = [] := by
    rw [State.freed_cons, if_pos hstops]
  have hforeign : s.foreign tag (cl :: busy) = [] := by
    rw [State.foreign_cons, if_pos hstops]
  refine ⟨?_, rfl, ?_, fun _ _ => rfl⟩
  · rw [hfreed, hforeign, State.kept_cons, if_pos hstops]
    exact h
  · rw [hfreed]
    exact nofun

/-- A link of another tag goes to the pool. -/
theorem owns_pool (h : Owns s free (cl :: busy) [] pool) :
    Owns (nightFreeChain cl { s with busy := s.next cl }) free busy [] (cl :: pool) := by
  have hnodup := h.nodup
  rw [List.nil_append] at hnodup
  have hperm : (free ++ (cl :: busy ++ pool)).Perm (free ++ (busy ++ (cl :: pool))) :=
    List.Perm.append_left free List.perm_middle.symm
  have hnot : cl ∉ free ++ (busy ++ pool) :=
    (List.nodup_cons.mp (List.perm_middle.nodup_iff.mp hnodup)).1
  simp only [List.mem_append, not_or] at hnot
  refine ⟨h.freeChain.update hnot.1 _, h.busyChain.2.update hnot.2.1 _, h.outChain, ⟨rfl, ?_⟩,
    hperm.nodup_iff.mp hnodup⟩
  change Segment (Function.update s.next cl s.poolChain)
    (Function.update s.next cl s.poolChain cl) pool none
  rw [Function.update_self]
  exact h.poolChain.update hnot.2.2 _

/-- A link of the tag goes to the free list. -/
theorem owns_free (h : Owns s free (cl :: busy) [] pool) (buf : ℕ → Buf) :
    Owns { s with
      next := Function.update s.next cl s.free
      buf := buf
      free := some cl
      busy := s.next cl } (cl :: free) busy [] pool := by
  have hnodup := h.nodup
  rw [List.nil_append] at hnodup
  have hperm : (free ++ (cl :: busy ++ pool)).Perm (cl :: free ++ (busy ++ pool)) :=
    List.perm_middle
  have hnot : cl ∉ free ++ (busy ++ pool) :=
    (List.nodup_cons.mp (List.perm_middle.nodup_iff.mp hnodup)).1
  simp only [List.mem_append, not_or] at hnot
  refine ⟨⟨rfl, ?_⟩, h.busyChain.2.update hnot.2.1 _, h.outChain,
    h.poolChain.update hnot.2.2 _, hperm.nodup_iff.mp hnodup⟩
  change Segment (Function.update s.next cl s.free) (Function.update s.next cl s.free cl) free none
  rw [Function.update_self]
  exact h.freeChain.update hnot.1 _

theorem Swept.cons_foreign {s₁ : State} {links : List ℕ} (htag : (s.bufOf cl).tag ≠ tag)
    (hkind : SameKind s s₁) (hbuf : s₁.buf = s.buf)
    (h : Swept s₁ tag free links (cl :: pool) s') : Swept s tag free (cl :: links) pool s' := by
  have hstops : s.stops tag cl = false := decide_eq_false fun hboth => htag hboth.1
  have hown : s.own tag cl = false := decide_eq_false htag
  have hfreed : s.freed tag (cl :: links) = s.freed tag links := by
    rw [State.freed_cons, hstops, hown]
    rfl
  have hforeign : s.foreign tag (cl :: links) = cl :: s.foreign tag links := by
    rw [State.foreign_cons, hstops, hown]
    rfl
  have hkept : s.kept tag (cl :: links) = s.kept tag links := by
    rw [State.kept_cons, hstops]
    rfl
  have howns := h.owns
  have hreset := h.reset
  have hothers := h.others
  have hsame : s₁.bufOf = s.bufOf := by
    funext x
    rw [State.bufOf, State.bufOf, hbuf, hkind.linkBuf]
  rw [hkind.freed, hkind.kept, hkind.foreign] at howns
  rw [hkind.freed, hsame] at hreset
  rw [hkind.freed, hkind.linkBuf, hbuf] at hothers
  refine ⟨?_, h.linkBuf.trans hkind.linkBuf, ?_, ?_⟩
  · rw [hfreed, hkept, hforeign, List.reverse_cons, List.append_assoc]
    exact howns
  · rw [hfreed]
    exact hreset
  · rw [hfreed]
    exact hothers

theorem Swept.cons_own {s₁ : State} {links : List ℕ} (htag : (s.bufOf cl).tag = tag)
    (hsize : nightBufSize (s.bufOf cl) = 0) (hkind : SameKind s s₁)
    (hbuf : s₁.buf = Function.update s.buf (s.linkBuf cl) (Buf.reset (s.bufOf cl)))
    (h : Swept s₁ tag (cl :: free) links pool s') :
    Swept s tag free (cl :: links) pool s' := by
  have hstops : s.stops tag cl = false := decide_eq_false fun hboth => hboth.2 hsize
  have hown : s.own tag cl = true := decide_eq_true htag
  have hfreed : s.freed tag (cl :: links) = cl :: s.freed tag links := by
    rw [State.freed_cons, hstops, hown]
    rfl
  have hforeign : s.foreign tag (cl :: links) = s.foreign tag links := by
    rw [State.foreign_cons, hstops, hown]
    rfl
  have hkept : s.kept tag (cl :: links) = s.kept tag links := by
    rw [State.kept_cons, hstops]
    rfl
  -- a buffer that two links share is reset twice
  have htwice : ∀ x, Buf.reset (s₁.bufOf x) = Buf.reset (s.bufOf x) := by
    intro x
    rw [State.bufOf, hbuf, hkind.linkBuf]
    by_cases hx : s.linkBuf x = s.linkBuf cl
    · rw [hx, Function.update_self, State.bufOf, State.bufOf, hx]
      rfl
    · rw [Function.update_of_ne hx]
      rfl
  have howns := h.owns
  have hreset := h.reset
  have hothers := h.others
  rw [hkind.freed, hkind.kept, hkind.foreign] at howns
  rw [hkind.freed] at hreset
  rw [hkind.freed, hkind.linkBuf] at hothers
  refine ⟨?_, h.linkBuf.trans hkind.linkBuf, ?_, ?_⟩
  · rw [hfreed, hkept, hforeign, List.reverse_cons, List.append_assoc]
    exact howns
  · rw [hfreed]
    intro x hx
    rcases List.mem_cons.mp hx with rfl | hx
    · by_cases hagain : s.linkBuf x ∈ (s.freed tag links).map s.linkBuf
      · obtain ⟨y, hy, hxy⟩ := List.mem_map.mp hagain
        have hsame : s.bufOf y = s.bufOf x := congrArg s.buf hxy
        have hbufs : s'.bufOf x = s'.bufOf y := by
          rw [State.bufOf, State.bufOf, h.linkBuf, hkind.linkBuf, hxy]
        rw [hbufs, hreset y hy, htwice, hsame]
      · rw [State.bufOf, h.linkBuf, hkind.linkBuf, hothers _ hagain, hbuf, Function.update_self]
    · rw [hreset x hx, htwice]
  · intro b hb
    rw [hfreed, List.map_cons, List.mem_cons, not_or] at hb
    rw [hothers b hb.2, hbuf, Function.update_of_ne hb.1]

theorem sweepBusy_spec {links : List ℕ} (h : Owns s free links [] pool) (tag : ℕ) {fuel : ℕ}
    (hfuel : links.length ≤ fuel) :
    ∃ s', sweepBusy tag fuel s = some s' ∧ s'.out = s.out ∧
      Swept s tag free links pool s' := by
  induction links generalizing s free pool fuel with
  | nil =>
      have hbusy : s.busy = none := h.busyChain
      refine ⟨s, ?_, rfl, ⟨h, rfl, nofun, fun _ _ => rfl⟩⟩
      unfold sweepBusy
      rw [hbusy]
  | cons cl links ih =>
      cases fuel with
      | zero => exact absurd hfuel (Nat.not_succ_le_zero _)
      | succ fuel =>
          have hbusy : s.busy = some cl := h.busyChain.1
          have hrest : links.length ≤ fuel := Nat.le_of_succ_le_succ hfuel
          by_cases htag : (s.bufOf cl).tag ≠ tag
          · obtain ⟨s', hsweep, hout, hswept⟩ := ih (owns_pool h) hrest
            have hkind : SameKind s (nightFreeChain cl { s with busy := s.next cl }) :=
              ⟨rfl, fun _ => rfl, fun _ => Iff.rfl⟩
            refine ⟨s', ?_, hout, hswept.cons_foreign htag hkind rfl⟩
            rw [sweepBusy, hbusy]
            simp only [if_pos htag]
            exact hsweep
          · by_cases hsize : nightBufSize (s.bufOf cl) ≠ 0
            · have hstops : s.stops tag cl = true :=
                decide_eq_true ⟨Decidable.not_not.mp htag, hsize⟩
              refine ⟨s, ?_, rfl, swept_stop h hstops⟩
              rw [sweepBusy, hbusy]
              simp only [if_neg htag, if_pos hsize]
            · have hzero := Decidable.not_not.mp hsize
              obtain ⟨s', hsweep, hout, hswept⟩ := ih (owns_free h
                (Function.update s.buf (s.linkBuf cl) (Buf.reset (s.bufOf cl)))) hrest
              refine ⟨s', ?_, hout, hswept.cons_own (Decidable.not_not.mp htag) hzero
                (sameKind_reset hzero _ _ _) rfl⟩
              rw [sweepBusy, hbusy]
              simp only [if_neg htag, if_neg hsize]
              exact hsweep

/-! ## The function -/

/-- The links that were passed and those that were not are all of them. -/
theorem parts_perm (s : State) (tag : ℕ) (free links pool : List ℕ) :
    ((s.freed tag links).reverse ++ free ++ (s.kept tag links ++
      ((s.foreign tag links).reverse ++ pool))).Perm (free ++ (links ++ pool)) := by
  have hpassed : (s.freed tag links ++ s.foreign tag links).Perm (s.passed tag links) :=
    List.filter_append_perm _ _
  have hall : s.passed tag links ++ s.kept tag links = links := List.takeWhile_append_dropWhile
  have hfreed : (s.freed tag links).reverse.Perm (s.freed tag links) := List.reverse_perm _
  have hforeign : (s.foreign tag links).reverse.Perm (s.foreign tag links) := List.reverse_perm _
  calc ((s.freed tag links).reverse ++ free ++ (s.kept tag links ++
        ((s.foreign tag links).reverse ++ pool))).Perm
          (s.freed tag links ++ free ++ (s.kept tag links ++ (s.foreign tag links ++ pool))) :=
        (hfreed.append_right free).append ((hforeign.append_right pool).append_left _)
    List.Perm _
        (free ++ (s.freed tag links ++ s.foreign tag links ++ s.kept tag links ++ pool)) := by
        rw [List.perm_iff_count]
        intro cl
        simp only [List.count_append]
        omega
    List.Perm _ (free ++ (s.passed tag links ++ s.kept tag links ++ pool)) :=
        ((hpassed.append_right _).append_right _).append_left _
    List.Perm _ (free ++ (links ++ pool)) := by rw [hall]

theorem nightChainUpdateChains_spec (h : Owns s free busy out pool) (tag : ℕ) {fuel : ℕ}
    (hfuel : (busy ++ out).length ≤ fuel) :
    ∃ s', nightChainUpdateChains fuel tag s = some s' ∧ s'.out = none ∧
      Swept s tag free (busy ++ out) pool s' ∧
      ((s.freed tag (busy ++ out)).reverse ++ free ++ (s.kept tag (busy ++ out) ++
        ((s.foreign tag (busy ++ out)).reverse ++ pool))).Perm
          (free ++ ((busy ++ out) ++ pool)) := by
  have hbusy : busy.length ≤ fuel := by
    rw [List.length_append] at hfuel
    omega
  obtain ⟨s₁, hmove, howns, hlinkBuf, hbuf, hout⟩ := moveOut_spec h hbusy
  obtain ⟨s', hsweep, hout', hswept⟩ := sweepBusy_spec howns tag hfuel
  refine ⟨s', ?_, hout'.trans hout, ?_, parts_perm s tag free (busy ++ out) pool⟩
  · rw [nightChainUpdateChains, hmove]
    exact hsweep
  · have hsame : s₁.bufOf = s.bufOf := by
      funext cl
      rw [State.bufOf, State.bufOf, hbuf, hlinkBuf]
    have hkind : SameKind s s₁ := by
      refine ⟨hlinkBuf, ?_, ?_⟩
      · intro cl
        rw [hsame]
      · intro cl
        rw [hsame]
    have hreset := hswept.reset
    have hothers := hswept.others
    have howns' := hswept.owns
    rw [hkind.freed, hkind.kept, hkind.foreign] at howns'
    rw [hkind.freed, hsame] at hreset
    rw [hkind.freed, hlinkBuf, hbuf] at hothers
    exact ⟨howns', hswept.linkBuf.trans hlinkBuf, hreset, hothers⟩

/-- A link in memory without bytes, whose buffer has the tag. -/
def emptyBuf (tag : ℕ) : Buf := ⟨100, 105, 105, 0, 0, 0, false, tag, by decide, by decide⟩

/-- One busy link with two bytes, one link of output. -/
def oneBusy (tag : ℕ) : State where
  next := fun _ => none
  linkBuf := id
  buf := fun b => if b = 0 then ⟨200, 203, 205, 0, 0, 0, false, tag, by decide, by decide⟩
    else emptyBuf 7
  poolChain := none
  free := none
  busy := some 0
  out := some 1

theorem oneBusy_owns (tag : ℕ) : Owns (oneBusy tag) [] [0] [1] [] :=
  ⟨rfl, ⟨rfl, rfl⟩, ⟨rfl, rfl⟩, rfl, by decide⟩

/-- The busy link of another tag goes to the pool, the output to the free list. -/
theorem nightChainUpdateChains_spec_foreign :
    ∃ s', nightChainUpdateChains 2 7 (oneBusy 5) = some s' ∧ s'.out = none ∧
      Swept (oneBusy 5) 7 [] [0, 1] [] s' ∧
      ((((oneBusy 5).freed 7 [0, 1]).reverse ++ [] ++ ((oneBusy 5).kept 7 [0, 1] ++
        (((oneBusy 5).foreign 7 [0, 1]).reverse ++ []))).Perm ([] ++ ([0, 1] ++ []))) :=
  nightChainUpdateChains_spec (oneBusy_owns 5) 7 (by decide)

/-- A buffer of another tag does not end the loop, whether or not it is empty. -/
theorem not_kept_foreign :
    ¬ ∀ (s : State) (free busy out pool : List ℕ) (tag fuel : ℕ), Owns s free busy out pool →
      (busy ++ out).length ≤ fuel →
      ∃ s' free' busy' pool', nightChainUpdateChains fuel tag s = some s' ∧ s'.out = none ∧
        Owns s' free' busy' [] pool' ∧
        (free' ++ (busy' ++ pool')).Perm (free ++ ((busy ++ out) ++ pool)) ∧
        busy' = (busy ++ out).dropWhile (fun cl => nightBufSize (s.bufOf cl) = 0) := by
  intro hall
  obtain ⟨s', free', busy', pool', hrun, -, howns, -, hbusy⟩ :=
    hall (oneBusy 5) [] [0] [1] [] 7 2 (oneBusy_owns 5) (by decide)
  have hrunBusy : (nightChainUpdateChains 2 7 (oneBusy 5)).map State.busy = some none := rfl
  rw [hrun, Option.map_some, Option.some.injEq] at hrunBusy
  have hdrop : busy' = [0, 1] := hbusy
  have hchain := howns.busyChain
  rw [hdrop, hrunBusy] at hchain
  cases hchain.1

end Night.BufChains
