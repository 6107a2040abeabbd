import Mathlib.Data.List.TakeWhile
import Night.Http.WriteFilterLaw

/-!
# The links of `r->out` when the write filter fails

The pool has memory for a number of new links, and a buffer of the input may be empty.  At
every return `r->out` has to be a chain of links that are in use, with the buffers that were
accepted.
-/

namespace Night.WriteFilterLinks

open Night.Chains
open Night.WriteFilter

/-! ## The filter with a limited pool -/

/-- The memory that is left when a link is taken: a free one needs none. -/
def served (memory : ℕ) (s : State) : Option ℕ :=
  match s.poolChain with
  | some _ => some memory
  | none => if memory = 0 then none else some (memory - 1)

/-- The loop over the input chain with both of its returns of `NIGHT_ERROR`. -/
def appendIn : ℕ → ℕ → State → Option ℕ → Locals → Option LoopEnd
  | _, _, s, none, locals => some (.done s locals)
  | 0, _, _, some _, _ => none
  | fuel + 1, memory, s, some ln, locals =>
      match served memory s with
      | none => some (.failed s)
      | some memory =>
          let appended := appendLink locals.ll ln s
          let cl := appended.1
          let s := appended.2
          let b := s.buf (s.linkBuf cl)
          if nightBufSize b ≤ 0 then some (.failed s)
          else appendIn fuel memory s (s.next ln) (locals.add cl b)

/-- The connection takes up to `count` bytes; it may fail behind them. -/
structure Sending where
  count : ℕ
  fails : Bool
  deriving DecidableEq, Repr

/-- The filter from the test for postponed output on; a failure behind some bytes leaves
`r->out` as it is. -/
def sendOut (s : State) (locals : Locals) (head : Option ℕ) (send : Sending) :
    Option (Code × State) :=
  if !locals.last && !locals.flush && head.isSome && locals.size < postponeOutput then
    some (.ok, s)
  else if send.fails then do
    let sent ← sendChain s s.out sendLimit send.count
    some (.error, { sent.1 with error := true })
  else WriteFilter.sendOut s locals head (.takes send.count)

/-- `night_http_write_filter`. -/
def nightHttpWriteFilter (memory : ℕ) (s : State) (head : Option ℕ) (send : Sending) :
    Option (Code × State) :=
  if s.error then some (.error, s)
  else do
    match ← scanOut s.links s s.out ⟨.out, 0, false, false, false⟩ with
    | .failed s => some (.error, s)
    | .done s locals =>
        match ← appendIn s.links memory s head locals with
        | .failed s => some (.error, s)
        | .done s locals => sendOut (store locals.ll none s) locals head send

theorem appendIn_enough {fuel memory : ℕ} (hmemory : fuel ≤ memory) (s : State) (head : Option ℕ)
    (locals : Locals) : appendIn fuel memory s head locals =
      WriteFilter.appendIn fuel s head locals := by
  induction fuel generalizing memory s head locals with
  | zero =>
      cases head with
      | none => rfl
      | some ln => rfl
  | succ fuel ih =>
      cases head with
      | none => rfl
      | some ln =>
          have hserved : ∃ left, served memory s = some left ∧ fuel ≤ left := by
            rw [served]
            cases s.poolChain with
            | none => exact ⟨memory - 1, if_neg (by omega), by omega⟩
            | some cl => exact ⟨memory, rfl, Nat.le_of_lt hmemory⟩
          obtain ⟨left, hserved, hleft⟩ := hserved
          rw [appendIn, hserved, WriteFilter.appendIn]
          dsimp only
          split
          · rfl
          · exact ih hleft _ _ _

/-- The loop over `r->out` changes nothing. -/
theorem scanOut_state {fuel : ℕ} {s : State} {head : Option ℕ} {locals : Locals} {ended : LoopEnd}
    (hscan : scanOut fuel s head locals = some ended) :
    ended = .failed s ∨ ∃ locals', ended = .done s locals' := by
  induction fuel generalizing head locals with
  | zero =>
      cases head with
      | none => exact Or.inr ⟨locals, (Option.some.inj hscan).symm⟩
      | some cl => cases hscan
  | succ fuel ih =>
      cases head with
      | none => exact Or.inr ⟨locals, (Option.some.inj hscan).symm⟩
      | some cl =>
          rw [scanOut] at hscan
          split at hscan
          · exact Or.inl (Option.some.inj hscan).symm
          · exact ih hscan

theorem sendOut_takes (s : State) (locals : Locals) (head : Option ℕ) (count : ℕ) :
    sendOut s locals head ⟨count, false⟩ = WriteFilter.sendOut s locals head (.takes count) := by
  rw [sendOut, if_neg Bool.false_ne_true]
  split
  · rename_i hpostponed
    rw [WriteFilter.sendOut, if_pos hpostponed]
  · rfl

/-- With memory for every link the filter is the one that never fails to get one. -/
theorem nightHttpWriteFilter_enough {memory : ℕ} (s : State) (hmemory : s.links ≤ memory)
    (head : Option ℕ) (count : ℕ) :
    nightHttpWriteFilter memory s head ⟨count, false⟩ =
      WriteFilter.nightHttpWriteFilter s head (.takes count) := by
  rw [nightHttpWriteFilter, WriteFilter.nightHttpWriteFilter]
  split
  · rfl
  cases hscan : scanOut s.links s s.out ⟨.out, 0, false, false, false⟩ with
  | none => rfl
  | some ended =>
      rcases scanOut_state hscan with rfl | ⟨locals, rfl⟩
      · rfl
      · show (appendIn s.links memory s head locals).bind _ = _
        rw [appendIn_enough hmemory]
        refine congrArg (Option.bind _) (funext fun ended => ?_)
        cases ended with
        | failed s => rfl
        | done s locals => exact sendOut_takes _ _ _ _

/-! ## What has to hold at a return -/

/-- A call of the filter: the links of `r->out` and of the input, the links that are free, and
the memory of the pool for new ones. -/
structure Call where
  s : State
  out : List ℕ
  input : List ℕ
  free : List ℕ
  head : Option ℕ
  memory : ℕ
  send : Sending
  links : Links s (out ++ input) free
  chain : Chain s.next s.out out
  inputChain : Chain s.next head input

def Call.run (call : Call) : Option (Code × State) :=
  nightHttpWriteFilter call.memory call.s call.head call.send

/-- The loop over the input is reached. -/
def Call.Begins (call : Call) : Prop :=
  call.s.error = false ∧ Positive call.s (refs call.s call.out)

/-- The buffers of the input for which there is a link, as long as none of them is empty. -/
def Call.served (call : Call) : List ℕ :=
  (refs call.s call.input).take (call.free.length + call.memory)

instance (s : State) (bufs : List ℕ) : Decidable (Positive s bufs) :=
  inferInstanceAs (Decidable (∀ b ∈ bufs, (s.buf b).bytes ≠ []))

instance (call : Call) : Decidable call.Begins :=
  inferInstanceAs (Decidable (_ ∧ _))

/-- The buffers of the input that are accepted. -/
def Call.accepted (call : Call) : List ℕ :=
  if call.Begins then call.served.takeWhile fun b => (call.s.buf b).bytes ≠ [] else []

/-- After the call `r->out` is a chain of links in use, which are not in the pool.  They are
those of `r->out` and new ones with the accepted buffers, without the first ones whose buffers
have nothing to send any more; no return but an error keeps one of these. -/
def Kept (call : Call) (code : Code) (s' : State) : Prop :=
  ∃ new sent kept, refs s' new = call.accepted ∧ refs s' call.out = refs call.s call.out ∧
    call.out ++ new = sent ++ kept ∧ Chain s'.next s'.out kept ∧
    (∃ free', Links s' kept free') ∧
    (∀ cl ∈ sent, (s'.buf (s'.linkBuf cl)).bytes = []) ∧
    (code ≠ .error → (refs s' (call.out ++ new)).Nodup → Positive s' (refs s' kept))

/-! ## The loops -/

theorem links_sublist {s : State} {used used' free : List ℕ} (hlinks : Links s used free)
    (hsub : used'.Sublist used) : Links s used' free where
  nodup := hlinks.nodup.sublist (hsub.append_right free)
  bound := by
    intro cl hcl
    exact hlinks.bound cl ((hsub.append_right free).subset hcl)
  chain := hlinks.chain

/-- An empty buffer in `r->out` ends the first loop. -/
theorem scanOut_failed {s : State} {links : List ℕ} {head : Option ℕ} {fuel : ℕ}
    {locals : Locals} (hchain : Chain s.next head links)
    (hempty : ¬ Positive s (refs s links)) (hfuel : links.length ≤ fuel) :
    scanOut fuel s head locals = some (.failed s) := by
  induction links generalizing head fuel locals with
  | nil => exact absurd (positive_nil s) hempty
  | cons cl links ih =>
      obtain ⟨rfl, hrest⟩ := hchain
      cases fuel with
      | zero => cases hfuel
      | succ fuel =>
          rw [scanOut]
          by_cases hsize : nightBufSize (s.buf (s.linkBuf cl)) ≤ 0
          · rw [if_pos hsize]
          · have hothers : ¬ Positive s (refs s links) := fun hothers =>
              hempty (positive_cons_iff.mpr ⟨hsize, hothers⟩)
            rw [if_neg hsize]
            exact ih hrest hothers (Nat.le_of_succ_le_succ hfuel)

theorem refs_take (s : State) (links : List ℕ) (room : ℕ) :
    refs s (links.take room) = (refs s links).take room := List.map_take

/-- Every link that is taken is one less for the calls to come. -/
theorem served_spec {s : State} {free : List ℕ} (hchain : Chain s.next s.poolChain free)
    (memory : ℕ) :
    (served memory s = none ∧ s.poolChain = none ∧ free.length + memory = 0) ∨
      ∃ left, served memory s = some left ∧ free.length + memory = free.tail.length + left + 1 := by
  rw [served]
  cases free with
  | nil =>
      have hpool : s.poolChain = none := hchain
      rw [hpool]
      by_cases hmemory : memory = 0
      · exact Or.inl ⟨if_pos hmemory, rfl, by rw [hmemory]; rfl⟩
      · refine Or.inr ⟨memory - 1, if_neg hmemory, ?_⟩
        rw [List.tail_nil, List.length_nil]
        omega
  | cons cl free =>
      rw [hchain.1]
      refine Or.inr ⟨memory, rfl, ?_⟩
      rw [List.tail_cons, List.length_cons]
      omega

/-- What the loop over the input does when no buffer that gets a link is empty: it appends
the links, and without memory for the next one their chain ends with `NULL`. -/
structure Appends (s : State) (out rest : List ℕ) (room : ℕ) (ended : LoopEnd) (s' : State)
    (new : List ℕ) : Prop where
  same : SameBuffers s s'
  linkBuf : refs s' out = refs s out
  refs : refs s' new = refs s (rest.take room)
  links : ∃ free, Links s' (out ++ new) free
  ended : (∃ locals tail, ended = .done s' locals ∧ locals.ll = slotOf (out ++ new) ∧
      Segment s'.next s'.out (out ++ new) tail ∧ rest.length ≤ room) ∨
    ended = .failed s' ∧ Chain s'.next s'.out (out ++ new)

/-- One turn of the loop and the ones behind it. -/
theorem appends_cons {s s₁ s' : State} {out rest new : List ℕ} {ln cl room left : ℕ}
    {ended : LoopEnd} (hroom : room = left + 1)
    (hrefsOut : WriteFilter.refs s₁ (out ++ [cl]) = WriteFilter.refs s (out ++ [ln]))
    (hrefsRest : WriteFilter.refs s₁ rest = WriteFilter.refs s rest) (hsame : SameBuffers s s₁)
    (happends : Appends s₁ (out ++ [cl]) rest left ended s' new) :
    Appends s out (ln :: rest) room ended s' (cl :: new) := by
  have hrefs := happends.linkBuf.trans hrefsOut
  rw [refs_append, refs_append] at hrefs
  obtain ⟨hout, hcl⟩ := List.append_inj hrefs (by rw [refs, refs, List.length_map, List.length_map])
  have hlinks := happends.links
  have hended := happends.ended
  rw [← List.append_cons] at hlinks hended
  refine ⟨hsame.trans happends.same, hout, ?_, hlinks, ?_⟩
  · have hnew := happends.refs
    rw [refs_take, hrefsRest, ← refs_take] at hnew
    rw [hroom, List.take_succ_cons, ← List.singleton_append, refs_append, hcl, hnew,
      ← refs_append, List.singleton_append]
  · rcases hended with ⟨locals, tail, hdone, hll, hsegment, hall⟩ | hfailed
    · refine Or.inl ⟨locals, tail, hdone, hll, hsegment, ?_⟩
      rw [hroom]
      exact Nat.succ_le_succ hall
    · exact Or.inr hfailed

theorem appendIn_appends {s : State} {out rest free : List ℕ} {head tail : Option ℕ}
    {fuel memory : ℕ} {locals : Locals} (hlinks : Links s (out ++ rest) free)
    (hout : Segment s.next s.out out tail) (htail : tail = none ∨ tail = s.poolChain)
    (hrest : Chain s.next head rest)
    (hpositive : Positive s (refs s (rest.take (free.length + memory))))
    (hfuel : rest.length ≤ fuel) (hll : locals.ll = slotOf out) :
    ∃ ended s' new, appendIn fuel memory s head locals = some ended ∧
      Appends s out rest (free.length + memory) ended s' new := by
  induction rest generalizing s out free head tail fuel memory locals with
  | nil =>
      have hhead : head = none := hrest
      rw [List.append_nil] at hlinks
      refine ⟨.done s locals, s, [], ?_, ⟨⟨rfl, rfl, rfl, rfl, rfl⟩, rfl, ?_, ?_, Or.inl ?_⟩⟩
      · cases fuel <;> rw [hhead, appendIn]
      · rw [List.take_nil]
      · rw [List.append_nil]
        exact ⟨free, hlinks⟩
      · rw [List.append_nil]
        exact ⟨locals, tail, rfl, hll, hout, Nat.zero_le _⟩
  | cons ln rest ih =>
      obtain ⟨rfl, hrest⟩ := hrest
      cases fuel with
      | zero => cases hfuel
      | succ fuel =>
          rw [appendIn]
          rcases served_spec hlinks.chain memory with ⟨hnone, hpool, hzero⟩ | ⟨left, hserved, hleft⟩
          · -- nothing was in the pool, so the last link ends the chain
            have hends : tail = none := by
              rcases htail with htail | htail
              · exact htail
              · rw [htail, hpool]
            refine ⟨.failed s, s, [], by rw [hnone], ⟨⟨rfl, rfl, rfl, rfl, rfl⟩, rfl, ?_, ?_,
              Or.inr ⟨rfl, ?_⟩⟩⟩
            · rw [hzero, List.take_zero]
            · rw [List.append_nil]
              exact ⟨free, links_sublist hlinks (List.sublist_append_left _ _)⟩
            · rw [hends] at hout
              rw [List.append_nil]
              exact hout
          · obtain ⟨cl, s₁, happend, hlinks₁, hout₁, hrest₁, hrefsOut, hrefsRest, hbuf, hsame⟩ :=
              appendLink_spec hlinks hout hrest
            rw [hleft, List.take_succ_cons] at hpositive
            obtain ⟨hfirst, hbehind⟩ := positive_cons_iff.mp hpositive
            have hsize : ¬ nightBufSize (s₁.buf (s₁.linkBuf cl)) ≤ 0 := by
              rw [hbuf, hsame.buf]
              exact hfirst
            have hothers : Positive s₁ (refs s₁ (rest.take (free.tail.length + left))) := by
              rw [refs_take, hrefsRest, ← refs_take,
                positive_congr fun b _ => congrFun hsame.buf b]
              exact hbehind
            have hnext := add_ll out cl (s₁.buf (s₁.linkBuf cl)) locals
            obtain ⟨ended, s', new, hrun, happends⟩ :=
              ih hlinks₁ hout₁ (Or.inr rfl) hrest₁ hothers (Nat.le_of_succ_le_succ hfuel) hnext
            refine ⟨ended, s', cl :: new, ?_, appends_cons hleft hrefsOut hrefsRest hsame happends⟩
            rw [hserved, hll, happend]
            dsimp only
            rw [if_neg hsize]
            exact hrun

/-- An empty buffer for which there is a link ends the loop with that link in `r->out`. -/
theorem appendIn_rejects {s : State} {out rest free : List ℕ} {head tail : Option ℕ}
    {fuel memory : ℕ} {locals : Locals} (hlinks : Links s (out ++ rest) free)
    (hout : Segment s.next s.out out tail) (hrest : Chain s.next head rest)
    (hempty : ¬ Positive s (refs s (rest.take (free.length + memory))))
    (hfuel : rest.length ≤ fuel) (hll : locals.ll = slotOf out) :
    ∃ s' links cl tail', appendIn fuel memory s head locals = some (.failed s') ∧
      SameBuffers s s' ∧ Segment s'.next s'.out (links ++ [cl]) tail' ∧
      (s'.buf (s'.linkBuf cl)).bytes = [] := by
  induction rest generalizing s out free head tail fuel memory locals with
  | nil =>
      rw [List.take_nil] at hempty
      exact absurd (by intro b hb; cases hb) hempty
  | cons ln rest ih =>
      obtain ⟨rfl, hrest⟩ := hrest
      cases fuel with
      | zero => cases hfuel
      | succ fuel =>
          rw [appendIn]
          rcases served_spec hlinks.chain memory with ⟨-, -, hzero⟩ | ⟨left, hserved, hleft⟩
          · rw [hzero, List.take_zero] at hempty
            exact absurd (by intro b hb; cases hb) hempty
          obtain ⟨cl, s₁, happend, hlinks₁, hout₁, hrest₁, -, hrefsRest, hbuf, hsame⟩ :=
            appendLink_spec hlinks hout hrest
          rw [hserved, hll, happend]
          dsimp only
          by_cases hsize : nightBufSize (s₁.buf (s₁.linkBuf cl)) ≤ 0
          · refine ⟨s₁, out, cl, s₁.poolChain, by rw [if_pos hsize], hsame, hout₁, ?_⟩
            by_contra hbytes
            exact nightBufSize_pos.mpr hbytes hsize
          · have hothers : ¬ Positive s₁ (refs s₁ (rest.take (free.tail.length + left))) := by
              intro hothers
              rw [refs_take, hrefsRest, ← refs_take,
                positive_congr fun b _ => congrFun hsame.buf b] at hothers
              rw [hbuf, hsame.buf] at hsize
              apply hempty
              rw [hleft, List.take_succ_cons]
              exact positive_cons_iff.mpr ⟨hsize, hothers⟩
            have hnext := add_ll out cl (s₁.buf (s₁.linkBuf cl)) locals
            obtain ⟨s', links, last, tail', hrun, hsame', hsegment, hlast⟩ :=
              ih hlinks₁ hout₁ hrest₁ hothers (Nat.le_of_succ_le_succ hfuel) hnext
            refine ⟨s', links, last, tail', ?_, hsame.trans hsame', hsegment, hlast⟩
            rw [if_neg hsize]
            exact hrun

/-! ## Sending -/

/-- Whatever is sent, the links in front of those that are left have empty buffers. -/
theorem updateSent_front {s : State} {links : List ℕ} {head : Option ℕ} {fuel sent : ℕ}
    (hchain : Chain s.next head links) (hfuel : links.length ≤ fuel) :
    ∃ buf' front rest head', nightChainUpdateSent fuel s head sent =
        some ({ s with buf := buf' }, head') ∧
      links = front ++ rest ∧ Chain s.next head' rest ∧
      (∀ b, (s.buf b).bytes = [] → (buf' b).bytes = []) ∧
      ∀ cl ∈ front, (buf' (s.linkBuf cl)).bytes = [] := by
  induction links generalizing s head fuel sent with
  | nil =>
      have hhead : head = none := hchain
      refine ⟨s.buf, [], [], none, ?_, rfl, rfl, fun _ hb => hb, ?_⟩
      · cases fuel <;> rw [hhead, nightChainUpdateSent]
      · intro cl hcl
        cases hcl
  | cons cl links ih =>
      obtain ⟨rfl, hrest⟩ := hchain
      cases fuel with
      | zero => cases hfuel
      | succ fuel =>
          rw [nightChainUpdateSent]
          by_cases hzero : sent = 0
          · refine ⟨s.buf, [], cl :: links, some cl, if_pos hzero, rfl, ⟨rfl, hrest⟩,
              fun _ hb => hb, ?_⟩
            intro cl hcl
            cases hcl
          -- an advanced buffer has no more bytes than it had
          have hadvance : ∀ count b, (s.buf b).bytes = [] →
              (Function.update s.buf (s.linkBuf cl)
                ((s.buf (s.linkBuf cl)).advance count) b).bytes = [] := by
            intro count b hb
            by_cases heq : b = s.linkBuf cl
            · rw [heq, Function.update_self, Buf.advance, ← heq, hb, List.drop_nil]
            · rw [Function.update_of_ne heq]
              exact hb
          rw [if_neg hzero]
          by_cases hwhole : sent ≥ nightBufSize (s.buf (s.linkBuf cl))
          · let s₁ : State := { s with
              buf := Function.update s.buf (s.linkBuf cl)
                ((s.buf (s.linkBuf cl)).advance (nightBufSize (s.buf (s.linkBuf cl)))) }
            obtain ⟨buf', front, rest, head', hrun, hlinks, hhead', hmore, hfront⟩ :=
              @ih s₁ (s.next cl) fuel (sent - nightBufSize (s.buf (s.linkBuf cl))) hrest
                (Nat.le_of_succ_le_succ hfuel)
            have hfirst : (s₁.buf (s.linkBuf cl)).bytes = [] := by
              rw [show s₁.buf (s.linkBuf cl) = _ from Function.update_self _ _ _]
              exact List.drop_length
            refine ⟨buf', cl :: front, rest, head', ?_, by rw [hlinks, List.cons_append], hhead',
              fun b hb => hmore b (hadvance _ b hb), ?_⟩
            · rw [if_pos hwhole]
              exact hrun
            · intro other hother
              rcases List.mem_cons.mp hother with rfl | hother
              · exact hmore _ hfirst
              · exact hfront other hother
          · refine ⟨_, [], cl :: links, some cl, if_neg hwhole, rfl, ⟨rfl, hrest⟩,
              hadvance sent, ?_⟩
            intro cl hcl
            cases hcl

/-- The connection changes buffers only; if these are different, those that are left have
bytes to send. -/
theorem sendChain_front {s : State} {links : List ℕ} (hchain : Chain s.next s.out links)
    (hpositive : Positive s (refs s links)) (hlength : links.length ≤ s.links)
    (limit count : ℕ) :
    ∃ sent wire buf' front rest head', sendChain s s.out limit count =
        some ({ s with sent := sent, wire := wire, buf := buf' }, head') ∧
      links = front ++ rest ∧ Chain s.next head' rest ∧
      (∀ cl ∈ front, (buf' (s.linkBuf cl)).bytes = []) ∧
      ((refs s links).Nodup → ∀ b ∈ refs s rest, (buf' b).bytes ≠ []) := by
  have hwalk : walk s.next s.links s.out = some links := walk_eq_some hchain hlength
  let n := min count (min limit (bytesOf s links).length)
  let s₁ : State := { s with sent := s.sent + n, wire := s.wire ++ (bytesOf s links).take n }
  have hn : n ≤ (bufBytes s₁ (refs s₁ links)).length := by
    have hle : n ≤ (bytesOf s links).length :=
      Nat.le_trans (Nat.min_le_right _ _) (Nat.min_le_right _ _)
    rw [bytesOf_eq] at hle
    exact hle
  obtain ⟨buf', front, rest, head', hrun, hsplit, hhead', -, hfront⟩ :=
    @updateSent_front s₁ links s.out s.links n hchain hlength
  refine ⟨s₁.sent, s₁.wire, buf', front, rest, head', ?_, hsplit, hhead', hfront, ?_⟩
  · rw [sendChain, hwalk]
    exact hrun
  · intro hnodup
    obtain ⟨buf'', front', rest', head'', hrun', -, hhead'', -, -, hleft⟩ :=
      updateSent_spec (s := s₁) hchain hnodup hpositive hlength hn
    obtain ⟨hstate, hheads⟩ := Prod.mk.inj (Option.some.inj (hrun.symm.trans hrun'))
    have hbuf : buf' = buf'' := congrArg State.buf hstate
    have hrest : rest = rest' := by
      rw [hheads] at hhead'
      exact Chain.unique hhead' hhead''
    rw [hbuf, hrest]
    exact hleft

/-- What sending leaves of the links. -/
structure Leaves (s : State) (links : List ℕ) (code : Code) (s' : State) (sent kept : List ℕ) :
    Prop where
  split : links = sent ++ kept
  chain : Chain s'.next s'.out kept
  free : ∃ free, Links s' kept free
  linkBuf : s'.linkBuf = s.linkBuf
  sent : ∀ cl ∈ sent, (s'.buf (s.linkBuf cl)).bytes = []
  kept : code ≠ .error → (refs s links).Nodup → Positive s' (refs s kept)

theorem sendOut_leaves {s : State} {links free : List ℕ} (hlinks : Links s links free)
    (hchain : Chain s.next s.out links) (hpositive : Positive s (refs s links))
    (locals : Locals) (head : Option ℕ) (send : Sending) :
    ∃ code s' sent kept, sendOut s locals head send = some (code, s') ∧
      Leaves s links code s' sent kept := by
  have hlength := hlinks.length_le
  have hnothing : ∀ cl ∈ ([] : List ℕ), (s.buf (s.linkBuf cl)).bytes = [] := by
    intro cl hcl
    cases hcl
  rw [sendOut]
  by_cases hpostponed : (!locals.last && !locals.flush && head.isSome &&
      decide (locals.size < postponeOutput)) = true
  · exact ⟨.ok, s, [], links, if_pos hpostponed, rfl, hchain, ⟨free, hlinks⟩, rfl, hnothing,
      fun _ _ => hpositive⟩
  rw [if_neg hpostponed]
  obtain ⟨sent, wire, buf', front, rest, head', hsend, hsplit, hhead', hfront, hleft⟩ :=
    sendChain_front hchain hpositive hlength sendLimit send.count
  by_cases hfails : send.fails = true
  · rw [if_pos hfails, hsend]
    refine ⟨.error, _, [], links, rfl, rfl, hchain, ⟨free, hlinks.nodup, hlinks.bound,
      hlinks.chain⟩, rfl, ?_, fun hcode => absurd rfl hcode⟩
    intro cl hcl
    cases hcl
  · let s₁ : State := { s with sent := sent, wire := wire, buf := buf' }
    have hlinks₁ : Links s₁ (front ++ rest) free :=
      ⟨hsplit ▸ hlinks.nodup, hsplit ▸ hlinks.bound, hlinks.chain⟩
    have hchain₁ : Chain s.next s.out (front ++ rest) := hsplit ▸ hchain
    obtain ⟨s₂, hfree, ⟨free', hlinks₂⟩, hkept, hlinkBuf, hsame⟩ :=
      freeSent_spec (s := s₁) hlinks₁ hchain₁ hhead' (hsplit ▸ hlength)
    refine ⟨if head'.isSome then .again else .ok, { s₂ with out := head' }, front, rest, ?_,
      hsplit, hkept, ⟨free', hlinks₂.nodup, hlinks₂.bound, hlinks₂.chain⟩, hlinkBuf, ?_, ?_⟩
    · rw [if_neg hfails, WriteFilter.sendOut, if_neg hpostponed]
      dsimp only
      rw [hsend]
      show (do let s ← freeSent s.links s₁ s.out head'
               some (if head'.isSome then Code.again else Code.ok, { s with out := head' })) = _
      rw [hfree]
      rfl
    · intro cl hcl
      show (s₂.buf (s.linkBuf cl)).bytes = []
      rw [hsame.buf]
      exact hfront cl hcl
    · intro _ hnodup b hb
      show (s₂.buf b).bytes ≠ []
      rw [hsame.buf]
      exact hleft hnodup b hb

/-! ## The filter -/

theorem Call.accepted_of_positive {call : Call} (hbegins : call.Begins)
    (hserved : Positive call.s call.served) : call.accepted = call.served := by
  have hall : ∀ b ∈ call.served, decide ((call.s.buf b).bytes ≠ []) = true :=
    fun b hb => decide_eq_true (hserved b hb)
  rw [Call.accepted, if_pos hbegins, List.takeWhile_eq_self_iff]
  exact hall

/-- No accepted buffer is empty. -/
theorem Call.positive_accepted (call : Call) : Positive call.s call.accepted := by
  rw [Call.accepted]
  split
  · intro b hb
    have himp := List.mem_takeWhile_imp hb
    exact of_decide_eq_true himp
  · intro b hb
    cases hb

/-- A return that leaves the links as they were. -/
theorem Call.kept_self {call : Call} (hbegins : ¬ call.Begins) :
    Kept call .error call.s := by
  have haccepted : call.accepted = [] := if_neg hbegins
  refine ⟨[], [], call.out, ?_, rfl, ?_, call.chain, ?_, ?_, fun hcode => absurd rfl hcode⟩
  · rw [haccepted]
    rfl
  · rw [List.append_nil, List.nil_append]
  · exact ⟨call.free, links_sublist call.links (List.sublist_append_left _ _)⟩
  · intro cl hcl
    cases hcl

theorem Call.run_not_begins {call : Call} (hbegins : ¬ call.Begins) :
    call.run = some (.error, call.s) := by
  rw [Call.run, nightHttpWriteFilter]
  by_cases herror : call.s.error = true
  · rw [if_pos herror]
  · have hempty : ¬ Positive call.s (refs call.s call.out) := by
      intro hpositive
      exact hbegins ⟨Bool.eq_false_iff.mpr herror, hpositive⟩
    have hlength : call.out.length ≤ call.s.links :=
      (links_sublist call.links (List.sublist_append_left _ _)).length_le
    rw [if_neg herror, scanOut_failed call.chain hempty hlength]
    rfl

/-- The filter from the loop over the input on. -/
theorem Call.run_begins {call : Call} (hbegins : call.Begins) :
    ∃ locals : Locals, locals.ll = slotOf call.out ∧ call.run =
      (appendIn call.s.links call.memory call.s call.head locals).bind fun
        | .failed s => some (.error, s)
        | .done s locals => sendOut (store locals.ll none s) locals call.head call.send := by
  have hlength : call.out.length ≤ call.s.links :=
    (links_sublist call.links (List.sublist_append_left _ _)).length_le
  have hstart : (Locals.mk .out 0 false false false).ll = slotOf [] := rfl
  obtain ⟨locals, hscan, hll⟩ := scanOut_spec call.chain hbegins.2 hlength hstart
  refine ⟨locals, hll, ?_⟩
  rw [Call.run, nightHttpWriteFilter, if_neg (Bool.eq_false_iff.mp hbegins.1), hscan]
  rfl

theorem Call.kept_of_served {call : Call} (hbegins : call.Begins)
    (hserved : Positive call.s call.served) :
    ∃ code s', call.run = some (code, s') ∧ Kept call code s' := by
  obtain ⟨locals, hll, hrun⟩ := call.run_begins hbegins
  have hlength : call.input.length ≤ call.s.links :=
    (links_sublist call.links (List.sublist_append_right _ _)).length_le
  have haccepted := call.accepted_of_positive hbegins hserved
  rw [Call.served, ← refs_take] at hserved
  obtain ⟨ended, s', new, hends, hsame, hlinkBuf, hrefs, ⟨free', hlinks⟩, hended⟩ :=
    appendIn_appends call.links call.chain (Or.inl rfl) call.inputChain hserved hlength hll
  rw [hends, Option.bind_some] at hrun
  rw [Call.served, ← refs_take, ← hrefs] at haccepted
  rcases hended with ⟨locals', tail, rfl, hll', hsegment, -⟩ | ⟨rfl, hchain⟩
  · -- the end of the chain is stored, and the links are sent
    obtain ⟨hchain, -⟩ := segment_store (List.nodup_append.mp hlinks.nodup).1 hsegment none
    have hlinks₂ := hlinks.store hsegment none
    have hsame₂ := hsame.trans (store_same (slotOf (call.out ++ new)) none s')
    have hbufs : ∀ links, refs (store (slotOf (call.out ++ new)) none s') links =
        refs s' links := by
      intro links
      rw [refs, store_linkBuf]
      rfl
    have hpositive : Positive (store (slotOf (call.out ++ new)) none s')
        (refs (store (slotOf (call.out ++ new)) none s') (call.out ++ new)) := by
      rw [hbufs, refs_append, hlinkBuf, hrefs, Positive, hsame₂.buf]
      intro b hb
      rcases List.mem_append.mp hb with hb | hb
      · exact hbegins.2 b hb
      · exact hserved b hb
    obtain ⟨code, s'', sent, kept, hsend, hleaves⟩ :=
      sendOut_leaves hlinks₂ hchain hpositive locals' call.head call.send
    have hrefs' : ∀ links, refs s'' links = refs s' links := by
      intro links
      rw [← hbufs, refs, hleaves.linkBuf]
      rfl
    refine ⟨code, s'', ?_, new, sent, kept, ?_, ?_, hleaves.split, hleaves.chain, hleaves.free,
      ?_, ?_⟩
    · rw [hrun]
      dsimp only
      rw [hll']
      exact hsend
    · rw [hrefs', haccepted]
    · rw [hrefs', hlinkBuf]
    · intro cl hcl
      rw [hleaves.linkBuf]
      exact hleaves.sent cl hcl
    · intro hcode hnodup
      rw [hrefs', ← hbufs] at hnodup ⊢
      exact hleaves.kept hcode hnodup
  · refine ⟨.error, s', hrun, new, [], call.out ++ new, haccepted.symm, hlinkBuf, rfl, hchain,
      ⟨free', hlinks⟩, ?_, fun hcode => absurd rfl hcode⟩
    intro cl hcl
    cases hcl

/-- After a rejected buffer its link is in `r->out`, and behind it come the free links. -/
theorem Call.not_kept {call : Call} (hbegins : call.Begins)
    (hserved : ¬ Positive call.s call.served) {code : Code} {s' : State}
    (hrun : call.run = some (code, s')) : ¬ Kept call code s' := by
  obtain ⟨locals, hll, hloop⟩ := call.run_begins hbegins
  have hlength : call.input.length ≤ call.s.links :=
    (links_sublist call.links (List.sublist_append_right _ _)).length_le
  rw [Call.served, ← refs_take] at hserved
  obtain ⟨s'', links, cl, tail, hends, hsame, hsegment, hempty⟩ :=
    appendIn_rejects call.links call.chain call.inputChain hserved hlength hll
  rw [hends, Option.bind_some, hrun] at hloop
  obtain rfl := (Prod.mk.inj (Option.some.inj hloop)).2
  rintro ⟨new, sent, kept, hnew, hout, hsplit, hchain, -⟩
  obtain ⟨right, hkept, -⟩ := Segment.exists_append hsegment hchain
  have hmem : cl ∈ call.out ++ new := by
    rw [hsplit, hkept]
    simp
  rw [hsame.buf] at hempty
  rcases List.mem_append.mp hmem with hmem | hmem
  · have hbuf : s'.linkBuf cl ∈ refs call.s call.out := hout ▸ List.mem_map_of_mem hmem
    exact hbegins.2 _ hbuf hempty
  · have hbuf : s'.linkBuf cl ∈ call.accepted := hnew ▸ List.mem_map_of_mem hmem
    exact call.positive_accepted _ hbuf hempty

/-- `r->out` is kept just where no buffer for which there is a link is empty, unless the
connection has failed or `r->out` has an empty buffer already. -/
theorem nightHttpWriteFilter_kept_iff (call : Call) :
    (∃ code s', call.run = some (code, s') ∧ Kept call code s') ↔
      (call.Begins → Positive call.s call.served) := by
  constructor
  · rintro ⟨code, s', hrun, hkept⟩ hbegins
    by_contra hserved
    exact call.not_kept hbegins hserved hrun hkept
  · intro hserved
    by_cases hbegins : call.Begins
    · exact call.kept_of_served hbegins (hserved hbegins)
    · exact ⟨.error, call.s, call.run_not_begins hbegins, call.kept_self hbegins⟩

/-- The last buffer of a response without a body, and one free link in the pool. -/
def lastBufCall : Call where
  s := {
    next := fun _ => none
    linkBuf := fun _ => 0
    buf := fun _ => ⟨[], false, false, false, false, true⟩
    links := 2
    bufs := 1
    poolChain := some 1
    out := none
    error := false
    sent := 0
    wire := [] }
  out := []
  input := [0]
  free := [1]
  head := some 0
  memory := 0
  send := ⟨0, false⟩
  links := ⟨by decide, by decide, rfl, rfl⟩
  chain := rfl
  inputChain := ⟨rfl, rfl⟩

theorem not_kept_lastBufCall :
    ¬ ∀ call : Call, ∃ code s', call.run = some (code, s') ∧ Kept call code s' := by
  intro hall
  obtain ⟨code, s', hrun, hkept⟩ := hall lastBufCall
  have hserved : ¬ Positive lastBufCall.s lastBufCall.served := by decide
  exact lastBufCall.not_kept ⟨rfl, by decide⟩ hserved hrun hkept

end Night.WriteFilterLinks
