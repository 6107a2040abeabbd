import Mathlib.Data.List.Perm.Subperm
import Night.Http.WriteFilter

/-!
# No byte of the output is lost

Between the calls of the write filter the links of `r->out` and those of the free
list are disjoint, and the buffers of `r->out` are pairwise different and not empty.
Every loop of the filter keeps this and moves bytes only from the input to `r->out`
and from there to the connection.
-/

namespace Night.WriteFilter

open Night.Bytes
open Night.Chains

/-- The buffers of the links. -/
def refs (s : State) (links : List ℕ) : List ℕ := links.map s.linkBuf

/-- The links in use and the free ones are different allocated links, and the pool
lists the free ones. -/
structure Links (s : State) (used free : List ℕ) : Prop where
  nodup : (used ++ free).Nodup
  bound : ∀ cl ∈ used ++ free, cl < s.links
  chain : Chain s.next s.poolChain free

theorem Links.perm {s : State} {used used' free : List ℕ} (hlinks : Links s used free)
    (hperm : used.Perm used') : Links s used' free where
  nodup := (hperm.append_right free).nodup_iff.mp hlinks.nodup
  bound := by
    intro cl hcl
    exact hlinks.bound cl ((hperm.append_right free).mem_iff.mpr hcl)
  chain := hlinks.chain

theorem Links.length_le {s : State} {used free : List ℕ} (hlinks : Links s used free) :
    used.length ≤ s.links := by
  have hnodup : used.Nodup := (List.nodup_append.mp hlinks.nodup).1
  have hsubset : used ⊆ List.range s.links := by
    intro cl hcl
    exact List.mem_range.mpr (hlinks.bound cl (List.mem_append_left _ hcl))
  simpa using (hnodup.subperm hsubset).length_le

/-! ## Taking a link -/

/-- Two states with the same buffers and the same connection. -/
structure SameBuffers (s s' : State) : Prop where
  buf : s'.buf = s.buf
  bufs : s'.bufs = s.bufs
  error : s'.error = s.error
  sent : s'.sent = s.sent
  wire : s'.wire = s.wire

theorem SameBuffers.trans {s s' s'' : State} (hleft : SameBuffers s s')
    (hright : SameBuffers s' s'') : SameBuffers s s'' where
  buf := hright.buf.trans hleft.buf
  bufs := hright.bufs.trans hleft.bufs
  error := hright.error.trans hleft.error
  sent := hright.sent.trans hleft.sent
  wire := hright.wire.trans hleft.wire

/-- A link that is taken is none of those in use, and they keep their `next`; `free` are the
links that are left in the pool. -/
structure Takes (s : State) (used free : List ℕ) (taken : ℕ × State) : Prop where
  same : SameBuffers s taken.2
  out : taken.2.out = s.out
  linkBuf : taken.2.linkBuf = s.linkBuf
  next : ∀ cl ∈ used, taken.2.next cl = s.next cl
  links : Links taken.2 (taken.1 :: used) free

theorem takes_newLink {s : State} {used free : List ℕ} (hlinks : Links s used free) :
    Takes s used free (newLink s) := by
  have hfresh : s.links ∉ used ++ free := by
    intro hmem
    exact absurd (hlinks.bound s.links hmem) (Nat.lt_irrefl _)
  have hagree : ∀ cl ∈ used ++ free, (newLink s).2.next cl = s.next cl := by
    intro cl hcl
    apply Function.update_of_ne
    intro heq
    exact hfresh (heq ▸ hcl)
  refine ⟨⟨rfl, rfl, rfl, rfl, rfl⟩, rfl, rfl,
    fun cl hcl => hagree cl (List.mem_append_left _ hcl), ?_, ?_, ?_⟩
  · exact List.nodup_cons.mpr ⟨hfresh, hlinks.nodup⟩
  · intro cl hcl
    show cl < s.links + 1
    rcases List.mem_cons.mp hcl with heq | hcl
    · rw [heq]
      exact Nat.lt_succ_self _
    · exact Nat.lt_succ_of_lt (hlinks.bound cl hcl)
  · exact hlinks.chain.congr fun cl hcl => hagree cl (List.mem_append_right _ hcl)

theorem takes_pmalloc {s : State} {used free : List ℕ} (hlinks : Links s used free) :
    Takes s used free.tail (nightPmallocChainLink s) := by
  cases free with
  | nil =>
      have hpool : s.poolChain = none := hlinks.chain
      rw [nightPmallocChainLink, hpool]
      exact takes_newLink hlinks
  | cons cl free =>
      obtain ⟨hpool, hfree⟩ := hlinks.chain
      rw [nightPmallocChainLink, hpool]
      refine ⟨⟨rfl, rfl, rfl, rfl, rfl⟩, rfl, rfl, fun _ _ => rfl, ?_, ?_, hfree⟩
      · exact (List.perm_middle.nodup_iff).mp hlinks.nodup
      · intro other hother
        exact hlinks.bound other (List.perm_middle.mem_iff.mpr hother)

/-- A link that is taken still leads to the links that are left in the pool. -/
theorem next_pmalloc (s : State) :
    (nightPmallocChainLink s).2.next (nightPmallocChainLink s).1 =
      (nightPmallocChainLink s).2.poolChain := by
  rw [nightPmallocChainLink]
  cases hpool : s.poolChain with
  | none =>
      dsimp only [newLink]
      rw [Function.update_self, hpool]
  | some cl => rfl

/-! ## The loop over the input -/

/-- Where the next link goes behind the links of `r->out`. -/
def slotOf (links : List ℕ) : Slot :=
  match links.getLast? with
  | none => .out
  | some cl => .next cl

@[simp]
theorem slotOf_append_singleton (links : List ℕ) (cl : ℕ) :
    slotOf (links ++ [cl]) = .next cl := by
  rw [slotOf, List.getLast?_concat]

@[simp]
theorem store_links (ll : Slot) (value : Option ℕ) (s : State) :
    (store ll value s).links = s.links := by
  cases ll <;> rfl

@[simp]
theorem store_poolChain (ll : Slot) (value : Option ℕ) (s : State) :
    (store ll value s).poolChain = s.poolChain := by
  cases ll <;> rfl

@[simp]
theorem store_linkBuf (ll : Slot) (value : Option ℕ) (s : State) :
    (store ll value s).linkBuf = s.linkBuf := by
  cases ll <;> rfl

theorem store_same (ll : Slot) (value : Option ℕ) (s : State) :
    SameBuffers s (store ll value s) := by
  cases ll <;> exact ⟨rfl, rfl, rfl, rfl, rfl⟩

/-- The store at the end of `r->out` changes where it leads to and nothing else. -/
theorem segment_store {s : State} {out : List ℕ} {tail : Option ℕ} (hnodup : out.Nodup)
    (hout : Segment s.next s.out out tail) (value : Option ℕ) :
    Segment (store (slotOf out) value s).next (store (slotOf out) value s).out out value ∧
      ∀ cl, cl ∉ out → (store (slotOf out) value s).next cl = s.next cl := by
  rcases List.eq_nil_or_concat' out with rfl | ⟨front, last, rfl⟩
  · exact ⟨rfl, fun _ _ => rfl⟩
  · have hnotin : last ∉ front := by
      intro hmem
      exact (List.nodup_append.mp hnodup).2.2 last hmem last (by simp) rfl
    rw [slotOf_append_singleton]
    refine ⟨hout.update_last hnotin value, ?_⟩
    intro cl hcl
    apply Function.update_of_ne
    intro heq
    exact hcl (by simp [heq])

theorem refs_append (s : State) (left right : List ℕ) :
    refs s (left ++ right) = refs s left ++ refs s right :=
  List.map_append

theorem refs_congr {s s' : State} {links : List ℕ}
    (hagree : ∀ cl ∈ links, s'.linkBuf cl = s.linkBuf cl) : refs s' links = refs s links :=
  List.map_congr_left hagree

/-- What one turn of the loop over the input does: a link with the buffer of `ln` comes
behind `r->out`, where its `next` leads to the free links, and the links of the input still to
come are as they were. -/
theorem appendLink_spec {s : State} {out rest free : List ℕ} {ln : ℕ} {tail : Option ℕ}
    (hlinks : Links s (out ++ ln :: rest) free)
    (hout : Segment s.next s.out out tail) (hrest : Chain s.next (s.next ln) rest) :
    ∃ cl s', appendLink (slotOf out) ln s = (cl, s') ∧
      Links s' (out ++ [cl] ++ rest) free.tail ∧
      Segment s'.next s'.out (out ++ [cl]) s'.poolChain ∧
      Chain s'.next (s'.next ln) rest ∧
      refs s' (out ++ [cl]) = refs s (out ++ [ln]) ∧ refs s' rest = refs s rest ∧
      s'.linkBuf cl = s.linkBuf ln ∧ SameBuffers s s' := by
  obtain ⟨hsame, houtSame, hlinkBuf, hnext, htaken⟩ := takes_pmalloc hlinks
  have hstale := next_pmalloc s
  generalize htake : nightPmallocChainLink s = taken at *
  generalize free.tail = free' at *
  obtain ⟨cl, s₁⟩ := taken
  simp only at hsame houtSame hlinkBuf hnext htaken hstale
  let s₂ : State := { s₁ with linkBuf := Function.update s₁.linkBuf cl (s₁.linkBuf ln) }
  have hnodup := htaken.nodup
  simp only [List.cons_append, List.append_assoc, List.nodup_cons, List.mem_append,
    List.mem_cons, not_or] at hnodup
  obtain ⟨⟨hclOut, hclLn, hclRest, hclFree⟩, hused⟩ := hnodup
  obtain ⟨houtNodup, hbehind, hdisjoint⟩ := List.nodup_append.mp hused
  have hnotOut : ∀ other ∈ ln :: rest ++ free', other ∉ out := by
    intro other hother hmem
    exact hdisjoint other hmem other hother rfl
  have hout₂ : Segment s₂.next s₂.out out tail := by
    rw [show s₂.out = s.out from houtSame]
    exact hout.congr fun other hother => hnext other (by simp [hother])
  obtain ⟨hsegment, hkeeps⟩ := segment_store houtNodup hout₂ (some cl)
  have hlinks₃ : (store (slotOf out) (some cl) s₂).links = s₁.links := store_links _ _ _
  have hpool₃ : (store (slotOf out) (some cl) s₂).poolChain = s₁.poolChain :=
    store_poolChain _ _ _
  have hbuf₃ : (store (slotOf out) (some cl) s₂).linkBuf =
      Function.update s.linkBuf cl (s.linkBuf ln) := by
    rw [store_linkBuf, ← hlinkBuf]
  have hsame₂ : SameBuffers s s₂ := ⟨hsame.buf, hsame.bufs, hsame.error, hsame.sent, hsame.wire⟩
  have hsame₃ := hsame₂.trans (store_same (slotOf out) (some cl) s₂)
  generalize hs₃ : store (slotOf out) (some cl) s₂ = s₃ at *
  have hnextLn : s₃.next ln = s.next ln := by
    rw [hkeeps ln (hnotOut ln (by simp))]
    exact hnext ln (by simp)
  have hnextCl : s₃.next cl = s₃.poolChain := by
    rw [hkeeps cl hclOut, hpool₃]
    exact hstale
  refine ⟨cl, s₃, ?_, ⟨?_, ?_, ?_⟩, ?_, ?_, ?_, ?_, ?_, hsame₃⟩
  · rw [appendLink, htake, ← hs₃]
  · have hsub : (out ++ [cl] ++ rest ++ free').Perm (cl :: (out ++ (rest ++ free'))) := by
      rw [List.append_assoc, List.append_assoc, List.singleton_append]
      exact List.perm_middle
    rw [hsub.nodup_iff, List.nodup_cons]
    constructor
    · simp only [List.mem_append, not_or]
      exact ⟨hclOut, hclRest, hclFree⟩
    · apply List.Nodup.sublist _ hused
      exact List.Sublist.append_left (List.sublist_cons_self _ _) _
  · intro other hother
    rw [hlinks₃]
    apply htaken.bound
    simp only [List.mem_append, List.mem_cons, List.not_mem_nil, or_false] at hother ⊢
    tauto
  · rw [hpool₃]
    apply htaken.chain.congr
    intro other hother
    exact hkeeps other (hnotOut other (by simp [hother]))
  · exact segment_append.mpr ⟨some cl, hsegment, rfl, hnextCl⟩
  · rw [hnextLn]
    apply hrest.congr
    intro other hother
    rw [hkeeps other (hnotOut other (by simp [hother]))]
    exact hnext other (by simp [hother])
  · have hsameOut : refs s₃ out = refs s out := by
      apply refs_congr
      intro other hother
      rw [hbuf₃]
      apply Function.update_of_ne
      intro heq
      exact hclOut (heq ▸ hother)
    rw [refs_append, refs_append, hsameOut]
    simp [refs, hbuf₃]
  · apply refs_congr
    intro other hother
    rw [hbuf₃]
    apply Function.update_of_ne
    intro heq
    exact hclRest (heq ▸ hother)
  · rw [hbuf₃, Function.update_self]

/-- No buffer in the list is empty. -/
def Positive (s : State) (bufs : List ℕ) : Prop := ∀ b ∈ bufs, (s.buf b).bytes ≠ []

theorem nightBufSize_pos {b : Buf} : ¬ nightBufSize b ≤ 0 ↔ b.bytes ≠ [] := by
  rw [nightBufSize, Nat.le_zero_eq, List.length_eq_zero_iff]

theorem positive_nil (s : State) : Positive s [] := nofun

/-- The test of the loops at the first buffer, and at the ones behind it. -/
theorem positive_cons_iff {s : State} {b : ℕ} {bufs : List ℕ} :
    Positive s (b :: bufs) ↔ ¬ nightBufSize (s.buf b) ≤ 0 ∧ Positive s bufs := by
  rw [nightBufSize_pos]
  exact List.forall_mem_cons

theorem positive_congr {s s' : State} {bufs : List ℕ}
    (hagree : ∀ b ∈ bufs, s'.buf b = s.buf b) : Positive s' bufs ↔ Positive s bufs :=
  forall₂_congr fun b hb => by rw [hagree b hb]

/-- The link that a loop has looked at is where the next one is stored. -/
theorem add_ll (links : List ℕ) (cl : ℕ) (b : Buf) (locals : Locals) :
    (locals.add cl b).ll = slotOf (links ++ [cl]) := by
  rw [slotOf_append_singleton]
  rfl

/-- The loop over `r->out` leaves `ll` behind it. -/
theorem scanOut_spec {s : State} {before links : List ℕ} {head : Option ℕ} {fuel : ℕ}
    {locals : Locals} (hchain : Chain s.next head links)
    (hpositive : Positive s (refs s links)) (hfuel : links.length ≤ fuel)
    (hll : locals.ll = slotOf before) :
    ∃ locals', scanOut fuel s head locals = some (.done s locals') ∧
      locals'.ll = slotOf (before ++ links) := by
  induction links generalizing head fuel before locals with
  | nil =>
      have hhead : head = none := hchain
      refine ⟨locals, ?_, by rw [hll, List.append_nil]⟩
      cases fuel <;> rw [hhead, scanOut]
  | cons cl links ih =>
      obtain ⟨rfl, hrest⟩ := hchain
      cases fuel with
      | zero => simp at hfuel
      | succ fuel =>
          obtain ⟨hsize, hothers⟩ := positive_cons_iff.mp hpositive
          have hnext := add_ll before cl (s.buf (s.linkBuf cl)) locals
          obtain ⟨locals', hscan, hll'⟩ := ih hrest hothers (by simpa using hfuel) hnext
          refine ⟨locals', ?_, by rw [hll', List.append_assoc, List.singleton_append]⟩
          rw [scanOut, if_neg hsize, hscan]

/-- The loop over an input without empty buffers appends its buffers to `r->out`. -/
theorem appendIn_spec {s : State} {out rest free : List ℕ} {head tail : Option ℕ}
    {fuel : ℕ} {locals : Locals} (hlinks : Links s (out ++ rest) free)
    (hout : Segment s.next s.out out tail) (hrest : Chain s.next head rest)
    (hpositive : Positive s (refs s rest)) (hfuel : rest.length ≤ fuel)
    (hll : locals.ll = slotOf out) :
    ∃ s' locals' new, appendIn fuel s head locals = some (.done s' locals') ∧
      locals'.ll = slotOf new ∧ (∃ free', Links s' new free') ∧
      (∃ tail', Segment s'.next s'.out new tail') ∧
      refs s' new = refs s (out ++ rest) ∧ SameBuffers s s' := by
  induction rest generalizing s out free head tail fuel locals with
  | nil =>
      have hhead : head = none := hrest
      rw [List.append_nil] at hlinks
      refine ⟨s, locals, out, ?_, hll, ⟨free, hlinks⟩, ⟨tail, hout⟩, by rw [List.append_nil],
        ⟨rfl, rfl, rfl, rfl, rfl⟩⟩
      cases fuel <;> rw [hhead, appendIn]
  | cons ln rest ih =>
      obtain ⟨rfl, hrest⟩ := hrest
      cases fuel with
      | zero => simp at hfuel
      | succ fuel =>
          obtain ⟨cl, s₁, happend, hlinks₁, hout₁, hrest₁, hrefsOut,
            hrefsRest, hbuf, hsame⟩ := appendLink_spec hlinks hout hrest
          obtain ⟨hfirst, hbehind⟩ := positive_cons_iff.mp hpositive
          have hsize : ¬ nightBufSize (s₁.buf (s₁.linkBuf cl)) ≤ 0 := by
            rw [hbuf, hsame.buf]
            exact hfirst
          have hothers : Positive s₁ (refs s₁ rest) := by
            rw [hrefsRest, positive_congr fun b _ => congrFun hsame.buf b]
            exact hbehind
          have hnext := add_ll out cl (s₁.buf (s₁.linkBuf cl)) locals
          obtain ⟨s', locals', new, hdone, hll', hlinks', hout', hnew, hsame'⟩ :=
            ih hlinks₁ hout₁ hrest₁ hothers (by simpa using hfuel) hnext
          refine ⟨s', locals', new, ?_, hll', hlinks', hout', ?_, hsame.trans hsame'⟩
          · rw [appendIn, hll, happend]
            simp only [if_neg hsize]
            exact hdone
          · rw [hnew, refs_append, hrefsOut, hrefsRest, ← refs_append, List.append_assoc,
              List.singleton_append]

/-- An empty buffer in the input makes the loop fail. -/
theorem appendIn_failed {s : State} {out rest free : List ℕ} {head tail : Option ℕ}
    {fuel : ℕ} {locals : Locals} (hlinks : Links s (out ++ rest) free)
    (hout : Segment s.next s.out out tail) (hrest : Chain s.next head rest)
    (hempty : ¬ Positive s (refs s rest)) (hfuel : rest.length ≤ fuel)
    (hll : locals.ll = slotOf out) :
    ∃ s', appendIn fuel s head locals = some (.failed s') := by
  induction rest generalizing s out free head tail fuel locals with
  | nil => exact absurd (positive_nil s) hempty
  | cons ln rest ih =>
      obtain ⟨rfl, hrest⟩ := hrest
      cases fuel with
      | zero => simp at hfuel
      | succ fuel =>
          obtain ⟨cl, s₁, happend, hlinks₁, hout₁, hrest₁, hrefsOut,
            hrefsRest, hbuf, hsame⟩ := appendLink_spec hlinks hout hrest
          rw [appendIn, hll, happend]
          by_cases hsize : nightBufSize (s₁.buf (s₁.linkBuf cl)) ≤ 0
          · exact ⟨s₁, by simp only [if_pos hsize]⟩
          · have hothers : ¬ Positive s₁ (refs s₁ rest) := by
              intro hothers
              rw [hrefsRest, positive_congr fun b _ => congrFun hsame.buf b] at hothers
              rw [hbuf, hsame.buf] at hsize
              exact hempty (positive_cons_iff.mpr ⟨hsize, hothers⟩)
            have hnext := add_ll out cl (s₁.buf (s₁.linkBuf cl)) locals
            simp only [if_neg hsize]
            exact ih hlinks₁ hout₁ hrest₁ hothers (by simpa using hfuel) hnext

/-! ## Sending -/

/-- The bytes of the buffers. -/
def bufBytes (s : State) (bufs : List ℕ) : List Byte := bufs.flatMap fun b => (s.buf b).bytes

theorem bytesOf_eq (s : State) (links : List ℕ) :
    bytesOf s links = bufBytes s (refs s links) := by
  rw [bytesOf, bufBytes, refs, List.flatMap_map]

theorem bufBytes_congr {s s' : State} {bufs : List ℕ}
    (hagree : ∀ b ∈ bufs, s'.buf b = s.buf b) : bufBytes s' bufs = bufBytes s bufs := by
  induction bufs with
  | nil => rfl
  | cons b bufs ih =>
      rw [bufBytes, List.flatMap_cons, hagree b (by simp)]
      exact congrArg _ (ih fun other hother => hagree other (by simp [hother]))

/-- Sending takes bytes from the front of the chain and stops at the link that still
has some. -/
theorem updateSent_spec {s : State} {links : List ℕ} {head : Option ℕ} {fuel sent : ℕ}
    (hchain : Chain s.next head links) (hnodup : (refs s links).Nodup)
    (hpositive : Positive s (refs s links)) (hfuel : links.length ≤ fuel)
    (hsent : sent ≤ (bufBytes s (refs s links)).length) :
    ∃ buf' front rest head', nightChainUpdateSent fuel s head sent =
        some ({ s with buf := buf' }, head') ∧
      links = front ++ rest ∧ Chain s.next head' rest ∧
      (∀ b, b ∉ refs s links → buf' b = s.buf b) ∧
      bufBytes { s with buf := buf' } (refs s rest) =
        (bufBytes s (refs s links)).drop sent ∧
      Positive { s with buf := buf' } (refs s rest) := by
  induction links generalizing s head fuel sent with
  | nil =>
      have hhead : head = none := hchain
      refine ⟨s.buf, [], [], none, ?_, rfl, rfl, fun _ _ => rfl, ?_, ?_⟩
      · cases fuel <;> rw [hhead, nightChainUpdateSent]
      · simp [bufBytes, refs]
      · intro b hb
        cases hb
  | cons cl links ih =>
      obtain ⟨rfl, hrest⟩ := hchain
      cases fuel with
      | zero => simp at hfuel
      | succ fuel =>
          obtain ⟨-, hbehind⟩ := positive_cons_iff.mp hpositive
          have hsplit : refs s (cl :: links) = s.linkBuf cl :: refs s links := rfl
          rw [hsplit, List.nodup_cons] at hnodup
          have hbytes : bufBytes s (refs s (cl :: links)) =
              (s.buf (s.linkBuf cl)).bytes ++ bufBytes s (refs s links) := rfl
          rw [hbytes, List.length_append] at hsent
          rw [nightChainUpdateSent, hbytes]
          by_cases hzero : sent = 0
          · refine ⟨s.buf, [], cl :: links, some cl, ?_, rfl, ⟨rfl, hrest⟩,
              fun _ _ => rfl, ?_, hpositive⟩
            · simp only [if_pos hzero]
            · rw [hzero, List.drop_zero]
              exact hbytes
          have hothers : ∀ value, ∀ b ∈ refs s links,
              Function.update s.buf (s.linkBuf cl) value b = s.buf b := by
            intro value b hb
            apply Function.update_of_ne
            intro heq
            exact hnodup.1 (heq ▸ hb)
          by_cases hwhole : sent ≥ nightBufSize (s.buf (s.linkBuf cl))
          · -- the whole buffer is sent, and the loop goes on with the next link
            let s₁ : State := { s with
              buf := Function.update s.buf (s.linkBuf cl)
                ((s.buf (s.linkBuf cl)).advance (nightBufSize (s.buf (s.linkBuf cl)))) }
            have hrest₁ : bufBytes s₁ (refs s₁ links) = bufBytes s (refs s links) :=
              bufBytes_congr (hothers _)
            have hpositive₁ : Positive s₁ (refs s₁ links) :=
              (positive_congr (hothers _)).mpr hbehind
            have hsent₁ : sent - nightBufSize (s.buf (s.linkBuf cl)) ≤
                (bufBytes s₁ (refs s₁ links)).length := by
              rw [hrest₁, nightBufSize]
              omega
            obtain ⟨buf', front, rest, head', hrun, hlinks, hhead', hkeeps, hdrop, hleft⟩ :=
              ih (s := s₁) hrest hnodup.2 hpositive₁ (by simpa using hfuel) hsent₁
            refine ⟨buf', cl :: front, rest, head', ?_, by rw [hlinks, List.cons_append],
              hhead', ?_, ?_, hleft⟩
            · simp only [if_neg hzero, if_pos hwhole]
              exact hrun
            · intro b hb
              simp only [hsplit, List.mem_cons, not_or] at hb
              rw [hkeeps b hb.2]
              exact Function.update_of_ne hb.1 _ _
            · rw [hrest₁] at hdrop
              rw [List.drop_append, List.drop_eq_nil_of_le hwhole, List.nil_append]
              exact hdrop
          · -- the connection has stopped inside this buffer
            let s₁ : State := { s with
              buf := Function.update s.buf (s.linkBuf cl)
                ((s.buf (s.linkBuf cl)).advance sent) }
            have hfirst₁ : (s₁.buf (s.linkBuf cl)).bytes =
                (s.buf (s.linkBuf cl)).bytes.drop sent := by
              rw [show s₁.buf (s.linkBuf cl) = _ from Function.update_self _ _ _]
              rfl
            have hless : sent < (s.buf (s.linkBuf cl)).bytes.length := Nat.lt_of_not_le hwhole
            refine ⟨s₁.buf, [], cl :: links, some cl, ?_, rfl, ⟨rfl, hrest⟩, ?_, ?_, ?_⟩
            · simp only [if_neg hzero, if_neg hwhole]
              rfl
            · intro b hb
              simp only [hsplit, List.mem_cons, not_or] at hb
              exact Function.update_of_ne hb.1 _ _
            · have hsum : bufBytes s₁ (refs s (cl :: links)) =
                  (s₁.buf (s.linkBuf cl)).bytes ++ bufBytes s₁ (refs s links) := rfl
              have hrest₁ : bufBytes s₁ (refs s links) = bufBytes s (refs s links) :=
                bufBytes_congr (hothers _)
              rw [List.drop_append_of_le_length (by omega), ← hfirst₁, ← hrest₁]
              exact hsum
            · refine positive_cons_iff.mpr ⟨?_, (positive_congr (hothers _)).mpr hbehind⟩
              show ¬ nightBufSize (s₁.buf (s.linkBuf cl)) ≤ 0
              rw [nightBufSize_pos, hfirst₁, ne_eq, List.drop_eq_nil_iff]
              omega

/-! ## Freeing what was sent -/

theorem Links.update {s : State} {used free : List ℕ} (hlinks : Links s used free)
    {cl : ℕ} (hcl : cl ∈ used) (value : Option ℕ) :
    Links { s with next := Function.update s.next cl value } used free where
  nodup := hlinks.nodup
  bound := hlinks.bound
  chain := by
    apply hlinks.chain.update
    intro hfree
    exact (List.nodup_append.mp hlinks.nodup).2.2 cl hcl cl hfree rfl

/-- A link that is freed goes in front of the free list. -/
theorem links_free {s : State} {used free : List ℕ} {cl : ℕ}
    (hlinks : Links s (cl :: used) free) : Links (nightFreeChain cl s) used (cl :: free) where
  nodup := List.perm_middle.nodup_iff.mpr hlinks.nodup
  bound := by
    intro other hother
    exact hlinks.bound other (List.perm_middle.mem_iff.mp hother)
  chain := by
    refine ⟨rfl, ?_⟩
    show Chain _ (Function.update s.next cl s.poolChain cl) free
    rw [Function.update_self]
    exact (hlinks.update (List.mem_cons_self) s.poolChain).chain

theorem freeSent_spec {s : State} {front rest free : List ℕ} {head chain : Option ℕ}
    {fuel : ℕ} (hlinks : Links s (front ++ rest) free)
    (hhead : Chain s.next head (front ++ rest)) (hchain : Chain s.next chain rest)
    (hfuel : (front ++ rest).length ≤ fuel) :
    ∃ s', freeSent fuel s head chain = some s' ∧ (∃ free', Links s' rest free') ∧
      Chain s'.next chain rest ∧ s'.linkBuf = s.linkBuf ∧ SameBuffers s s' := by
  induction front generalizing s free head fuel with
  | nil =>
      have hsame : head = chain := (Chain.head_eq hhead).trans (Chain.head_eq hchain).symm
      refine ⟨s, ?_, ⟨free, hlinks⟩, hchain, rfl, ⟨rfl, rfl, rfl, rfl, rfl⟩⟩
      cases fuel with
      | zero =>
          have hnone : rest = [] := by simpa using hfuel
          have hhead : head = none := by simpa [hnone, Segment] using hhead
          rw [hhead, freeSent]
      | succ fuel =>
          cases head with
          | none => rw [freeSent]
          | some cl => rw [freeSent, if_pos hsame]
  | cons cl front ih =>
      obtain ⟨rfl, hnext⟩ := hhead
      cases fuel with
      | zero => simp at hfuel
      | succ fuel =>
          have hnotin : cl ∉ front ++ rest := by
            have hnodup : (cl :: (front ++ rest)).Nodup := (List.nodup_append.mp hlinks.nodup).1
            exact (List.nodup_cons.mp hnodup).1
          have hother : some cl ≠ chain := by
            intro heq
            apply hnotin
            have hfirst : rest.head? = some cl := (Chain.head_eq hchain).symm.trans heq.symm
            exact List.mem_append_right _ (List.mem_of_mem_head? hfirst)
          have hchain' : Chain (nightFreeChain cl s).next chain rest := by
            apply hchain.update
            intro hmem
            exact hnotin (List.mem_append_right _ hmem)
          obtain ⟨s', hrun, hlinks', hkept, hbuf, hsame⟩ :=
            ih (links_free hlinks) (hnext.update hnotin _) hchain' (by simpa using hfuel)
          have hfreed : SameBuffers s (nightFreeChain cl s) := ⟨rfl, rfl, rfl, rfl, rfl⟩
          refine ⟨s', ?_, hlinks', hkept, hbuf, hfreed.trans hsame⟩
          rw [freeSent, if_neg hother, hrun]

/-! ## One call -/

/-- What holds between calls. -/
structure Holds (s : State) (out : List ℕ) : Prop where
  links : ∃ free, Links s out free
  chain : Chain s.next s.out out
  nodup : (refs s out).Nodup
  bound : ∀ b ∈ refs s out, b < s.bufs
  positive : Positive s (refs s out)
  error : s.error = false

/-- The filter sends from the front of `r->out` and keeps the rest. -/
theorem sendOut_spec {s : State} {out : List ℕ} (hs : Holds s out) (locals : Locals)
    (head : Option ℕ) (count : ℕ) :
    ∃ code s' out', sendOut s locals head (.takes count) = some (code, s') ∧
      code ≠ .error ∧ Holds s' out' ∧
      s'.wire ++ bytesOf s' out' = s.wire ++ bytesOf s out ∧
      (code = .again → out' ≠ []) ∧ s'.sent + s.wire.length = s.sent + s'.wire.length := by
  rw [sendOut]
  split
  · exact ⟨.ok, s, out, rfl, by decide, hs, rfl, fun hagain => absurd hagain (by decide), rfl⟩
  obtain ⟨free, hlinks⟩ := hs.links
  have hlength : out.length ≤ s.links := hlinks.length_le
  have hwalk : walk s.next s.links s.out = some out := walk_eq_some hs.chain hlength
  let n := min count (min sendLimit (bytesOf s out).length)
  let s₁ : State := { s with sent := s.sent + n, wire := s.wire ++ (bytesOf s out).take n }
  have hn : n ≤ (bufBytes s₁ (refs s₁ out)).length := by
    have hle : n ≤ (bytesOf s out).length :=
      Nat.le_trans (Nat.min_le_right _ _) (Nat.min_le_right _ _)
    rw [bytesOf_eq] at hle
    exact hle
  obtain ⟨buf', front, rest, head', hsent, hsplit, hhead', hkeeps, hdrop, hpositive⟩ :=
    updateSent_spec (s := s₁) hs.chain hs.nodup hs.positive hlength hn
  have hsend : sendChain s s.out sendLimit count = some ({ s₁ with buf := buf' }, head') := by
    rw [sendChain, hwalk]
    exact hsent
  have hlinks₂ : Links { s₁ with buf := buf' } (front ++ rest) free :=
    ⟨hsplit ▸ hlinks.nodup, hsplit ▸ hlinks.bound, hlinks.chain⟩
  have hchain₂ : Chain s.next s.out (front ++ rest) := hsplit ▸ hs.chain
  obtain ⟨s₂, hfree, ⟨free', hlinks'⟩, hkept, hbuf, hsame⟩ :=
    freeSent_spec (s := { s₁ with buf := buf' }) hlinks₂ hchain₂ hhead' (hsplit ▸ hlength)
  have hrefs : refs s₂ rest = refs s rest := by
    rw [refs, hbuf]
    rfl
  have hsublist : (refs s rest).Sublist (refs s out) := by
    rw [hsplit, refs_append]
    exact List.sublist_append_right _ _
  refine ⟨if head'.isSome then .again else .ok, { s₂ with out := head' }, rest, ?_, ?_,
    ⟨⟨free', hlinks'.nodup, hlinks'.bound, hlinks'.chain⟩, hkept, ?_, ?_, ?_, ?_⟩, ?_, ?_, ?_⟩
  · rw [hsend]
    show (do let s ← freeSent s.links { s₁ with buf := buf' } s.out head'
             some (if head'.isSome then Code.again else Code.ok, { s with out := head' })) = _
    rw [hfree]
    rfl
  · split <;> decide
  · show (refs s₂ rest).Nodup
    rw [hrefs]
    exact hs.nodup.sublist hsublist
  · intro b hb
    show b < s₂.bufs
    rw [hsame.bufs]
    apply hs.bound
    apply hsublist.subset
    rw [← hrefs]
    exact hb
  · intro b hb
    show (s₂.buf b).bytes ≠ []
    rw [hsame.buf]
    apply hpositive
    show b ∈ refs s rest
    rw [← hrefs]
    exact hb
  · show s₂.error = false
    rw [hsame.error]
    exact hs.error
  · have hleft : bytesOf s₂ rest = (bytesOf s out).drop n := by
      rw [bytesOf_eq, bytesOf_eq, hrefs, bufBytes, hsame.buf]
      exact hdrop
    show s₂.wire ++ bytesOf s₂ rest = _
    rw [hsame.wire, hleft]
    show s.wire ++ (bytesOf s out).take n ++ _ = _
    rw [List.append_assoc, List.take_append_drop]
  · intro hagain
    rw [Chain.head_eq hhead'] at hagain
    intro hnil
    simp [hnil] at hagain
  · show s₂.sent + s.wire.length = s.sent + s₂.wire.length
    rw [hsame.sent, hsame.wire]
    show s.sent + n + s.wire.length = s.sent + (s.wire ++ (bytesOf s out).take n).length
    rw [List.length_append, List.length_take]
    omega

/-- The caller's chain consists of links that were not in use and new buffers with the
bytes of its input. -/
theorem buildChain_spec {s : State} {used free : List ℕ} (hlinks : Links s used free)
    (pooled : Bool) (input : List InputBuf) :
    ∃ head s' new, buildChain pooled input s = (head, s') ∧
      (∃ free', Links s' (used ++ new) free') ∧ Chain s'.next head new ∧
      (∀ cl ∈ used, s'.next cl = s.next cl ∧ s'.linkBuf cl = s.linkBuf cl) ∧
      (∀ b < s.bufs, s'.buf b = s.buf b) ∧ s'.bufs = s.bufs + input.length ∧
      refs s' new = List.range' s.bufs input.length ∧
      (refs s' new).map s'.buf = input.map InputBuf.toBuf ∧
      s'.out = s.out ∧ s'.error = s.error ∧ s'.wire = s.wire ∧ s'.sent = s.sent := by
  induction input generalizing s used free with
  | nil =>
      refine ⟨none, s, [], rfl, ⟨free, ?_⟩, rfl, fun _ _ => ⟨rfl, rfl⟩, fun _ _ => rfl, rfl,
        rfl, rfl, rfl, rfl, rfl, rfl⟩
      rw [List.append_nil]
      exact hlinks
  | cons b input ih =>
      have htakes : ∃ free', Takes s used free'
          (if pooled then nightPmallocChainLink s else newLink s) := by
        split
        · exact ⟨_, takes_pmalloc hlinks⟩
        · exact ⟨_, takes_newLink hlinks⟩
      generalize htake : (if pooled then nightPmallocChainLink s else newLink s) = taken at *
      obtain ⟨cl, s₁⟩ := taken
      obtain ⟨free₁, hsame, hout, hlinkBuf, hnext, hlinks₁⟩ := htakes
      simp only at hsame hout hlinkBuf hnext hlinks₁
      let s₂ : State := { s₁ with
        linkBuf := Function.update s₁.linkBuf cl s₁.bufs
        buf := Function.update s₁.buf s₁.bufs b.toBuf
        bufs := s₁.bufs + 1 }
      have hlinks₂ : Links s₂ (cl :: used) free₁ :=
        ⟨hlinks₁.nodup, hlinks₁.bound, hlinks₁.chain⟩
      obtain ⟨head, s₃, new, hbuild, ⟨free₃, hlinks₃⟩, hchain, hkeeps, hbufs, hcount, hrefs,
        hcontents, hout₃, herror, hwire, hsent⟩ := ih hlinks₂
      have hcl : cl ∉ used ++ new := by
        have hnodup := (List.nodup_append.mp hlinks₃.nodup).1
        exact (List.nodup_cons.mp hnodup).1
      have hclBuf : s₃.linkBuf cl = s.bufs := by
        rw [(hkeeps cl (by simp)).2, ← hsame.bufs]
        exact Function.update_self _ _ _
      have hfirst : s₃.buf s.bufs = b.toBuf := by
        rw [← hsame.bufs, hbufs s₁.bufs (Nat.lt_succ_self _)]
        exact Function.update_self _ _ _
      have hmiddle : (cl :: used ++ new).Perm (used ++ cl :: new) := List.perm_middle.symm
      have hlinks₄ := (hlinks₃.update (List.mem_cons_self) head).perm hmiddle
      refine ⟨some cl, { s₃ with next := Function.update s₃.next cl head }, cl :: new, ?_,
        ⟨free₃, hlinks₄⟩, ⟨rfl, ?_⟩, ?_, ?_, ?_, ?_, ?_, ?_, ?_, ?_, ?_⟩
      · rw [buildChain, htake]
        show (some cl, { (buildChain pooled input s₂).2 with
          next := Function.update (buildChain pooled input s₂).2.next cl
            (buildChain pooled input s₂).1 }) = _
        rw [hbuild]
      · show Chain (Function.update s₃.next cl head) (Function.update s₃.next cl head cl) new
        rw [Function.update_self]
        exact hchain.update (fun hmem => hcl (List.mem_append_right _ hmem)) _
      · intro other hother
        have hne : other ≠ cl := fun heq => hcl (List.mem_append_left _ (heq ▸ hother))
        obtain ⟨hnextOther, hbufOther⟩ := hkeeps other (List.mem_cons_of_mem _ hother)
        constructor
        · calc Function.update s₃.next cl head other
              _ = s₃.next other := Function.update_of_ne hne _ _
              _ = s₁.next other := hnextOther
              _ = s.next other := hnext other hother
        · calc s₃.linkBuf other
              _ = s₂.linkBuf other := hbufOther
              _ = s₁.linkBuf other := Function.update_of_ne hne _ _
              _ = s.linkBuf other := by rw [hlinkBuf]
      · intro other hother
        have hlt : other < s₁.bufs := by
          rw [hsame.bufs]
          exact hother
        calc s₃.buf other
            _ = s₂.buf other := hbufs other (Nat.lt_succ_of_lt hlt)
            _ = s₁.buf other := Function.update_of_ne (Nat.ne_of_lt hlt) _ _
            _ = s.buf other := by rw [hsame.buf]
      · show s₃.bufs = _
        rw [hcount, List.length_cons, show s₂.bufs = s.bufs + 1 by rw [← hsame.bufs]]
        omega
      · show s₃.linkBuf cl :: refs s₃ new = _
        rw [hclBuf, hrefs, List.length_cons, List.range'_succ,
          show s₂.bufs = s.bufs + 1 by rw [← hsame.bufs]]
      · show s₃.buf (s₃.linkBuf cl) :: (refs s₃ new).map s₃.buf = _
        rw [hclBuf, hfirst, hcontents, List.map_cons]
      · exact hout₃.trans hout
      · exact herror.trans hsame.error
      · exact hwire.trans hsame.wire
      · exact hsent.trans hsame.sent

/-- The state in which the filter gets the chain `new` behind the links of `r->out`. -/
structure Built (s : State) (out : List ℕ) (call : Call) (s' : State) (head : Option ℕ)
    (new : List ℕ) : Prop where
  links : ∃ free, Links s' (out ++ new) free
  chain : Chain s'.next s'.out out
  input : Chain s'.next head new
  nodup : (refs s' (out ++ new)).Nodup
  bound : ∀ b ∈ refs s' (out ++ new), b < s'.bufs
  positive : Positive s' (refs s' out)
  inputPositive : Positive s' (refs s' new) ↔ ∀ b ∈ call.input, b.bytes ≠ []
  error : s'.error = false
  bytes : s'.wire ++ bufBytes s' (refs s' (out ++ new)) =
    s.wire ++ bytesOf s out ++ call.bytes
  wire : s'.wire = s.wire
  sent : s'.sent = s.sent

theorem exists_built {s : State} {out : List ℕ} (hs : Holds s out) (call : Call) :
    ∃ head s' new, buildChain call.pooled call.input s = (head, s') ∧
      Built s out call s' head new := by
  obtain ⟨free, hlinks⟩ := hs.links
  obtain ⟨head, s', new, hbuild, hlinks', hnew, hkeeps, hbufs, hcount, hrefs, hcontents,
    hout, herror, hwire, hsent⟩ := buildChain_spec hlinks call.pooled call.input
  have hrefsOut : refs s' out = refs s out := refs_congr fun cl hcl => (hkeeps cl hcl).2
  have hmap (f : List Byte → Prop) (hf : ∀ b ∈ refs s' new, f (s'.buf b).bytes) :
      ∀ b ∈ call.input, f b.bytes := by
    intro b hb
    have hmem : b.toBuf ∈ (refs s' new).map s'.buf := by
      rw [hcontents]
      exact List.mem_map_of_mem hb
    obtain ⟨address, haddress, heq⟩ := List.mem_map.mp hmem
    rw [← heq]
    exact hf address haddress
  refine ⟨head, s', new, hbuild, hlinks', ?_, hnew, ?_, ?_, ?_, ⟨hmap (· ≠ []), ?_⟩,
    herror.trans hs.error, ?_, hwire, hsent⟩
  · rw [hout]
    exact hs.chain.congr fun cl hcl => (hkeeps cl hcl).1
  · rw [refs_append, hrefsOut, hrefs, List.nodup_append]
    refine ⟨hs.nodup, List.nodup_range', ?_⟩
    intro b hb other hother heq
    have hlt : b < s.bufs := hs.bound b hb
    have hge : s.bufs ≤ other := (List.mem_range'_1.mp hother).1
    omega
  · rw [refs_append, hrefsOut, hrefs, hcount]
    intro b hb
    rcases List.mem_append.mp hb with hb | hb
    · have hlt : b < s.bufs := hs.bound b hb
      omega
    · exact (List.mem_range'_1.mp hb).2
  · rw [hrefsOut]
    intro b hb
    rw [hbufs b (hs.bound b hb)]
    exact hs.positive b hb
  · intro hinput b hb
    have hmem : s'.buf b ∈ call.input.map InputBuf.toBuf := by
      rw [← hcontents]
      exact List.mem_map_of_mem hb
    obtain ⟨input, hmem, heq⟩ := List.mem_map.mp hmem
    rw [← heq]
    exact hinput input hmem
  · have hpending : bufBytes s' (refs s out) = bytesOf s out := by
      rw [bytesOf_eq]
      exact bufBytes_congr fun b hb => hbufs b (hs.bound b hb)
    have hinput : bufBytes s' (refs s' new) = call.bytes := by
      calc bufBytes s' (refs s' new)
          _ = ((refs s' new).map s'.buf).flatMap Buf.bytes := by rw [bufBytes, List.flatMap_map]
          _ = (call.input.map InputBuf.toBuf).flatMap Buf.bytes := by rw [hcontents]
          _ = call.bytes := by rw [Call.bytes, List.flatMap_map]
    rw [refs_append, hrefsOut, bufBytes, List.flatMap_append, hwire, List.append_assoc]
    exact congrArg _ (congrArg₂ _ hpending hinput)

theorem Links.store {s : State} {out free : List ℕ} {tail : Option ℕ}
    (hlinks : Links s out free) (hout : Segment s.next s.out out tail) (value : Option ℕ) :
    Links (store (slotOf out) value s) out free where
  nodup := hlinks.nodup
  bound := by
    rw [store_links]
    exact hlinks.bound
  chain := by
    obtain ⟨hnodup, hfree, hdisjoint⟩ := List.nodup_append.mp hlinks.nodup
    rw [store_poolChain]
    apply hlinks.chain.congr
    intro cl hcl
    apply (segment_store hnodup hout value).2
    intro hmem
    exact hdisjoint cl hmem cl hcl rfl

/-- The filter up to its second loop. -/
theorem runCall_eq {s s₁ : State} {out new : List ℕ} {call : Call} {head : Option ℕ}
    (hbuild : buildChain call.pooled call.input s = (head, s₁))
    (hbuilt : Built s out call s₁ head new) :
    ∃ locals : Locals, locals.ll = slotOf out ∧ runCall s call =
      (appendIn s₁.links s₁ head locals).bind fun
        | .failed s => some (.error, s)
        | .done s locals => sendOut (store locals.ll none s) locals head (.takes call.count) := by
  obtain ⟨free, hlinks⟩ := hbuilt.links
  have hlength : out.length ≤ s₁.links := by
    have hall := hlinks.length_le
    rw [List.length_append] at hall
    omega
  have hstart : (Locals.mk .out 0 false false false).ll = slotOf [] := rfl
  obtain ⟨locals, hscan, hll⟩ := scanOut_spec hbuilt.chain hbuilt.positive hlength hstart
  refine ⟨locals, hll, ?_⟩
  rw [runCall, hbuild]
  show nightHttpWriteFilter s₁ head _ = _
  have herror : ¬ s₁.error = true := by
    rw [hbuilt.error]
    decide
  rw [nightHttpWriteFilter, if_neg herror, hscan]
  rfl

/-- A call whose input has no empty buffers succeeds and loses nothing. -/
theorem runCall_spec {s : State} {out : List ℕ} (hs : Holds s out) {call : Call}
    (hinput : ∀ b ∈ call.input, b.bytes ≠ []) :
    ∃ code s' out', runCall s call = some (code, s') ∧ code ≠ .error ∧ Holds s' out' ∧
      s'.wire ++ bytesOf s' out' = s.wire ++ bytesOf s out ++ call.bytes ∧
      (code = .again → out' ≠ []) ∧ s'.sent + s.wire.length = s.sent + s'.wire.length := by
  obtain ⟨head, s₁, new, hbuild, hbuilt⟩ := exists_built hs call
  obtain ⟨locals, hll, hrun⟩ := runCall_eq hbuild hbuilt
  obtain ⟨free, hlinks⟩ := hbuilt.links
  have hlength : new.length ≤ s₁.links := by
    have hall := hlinks.length_le
    rw [List.length_append] at hall
    omega
  obtain ⟨s₂, locals₂, out₂, happend, hll₂, ⟨free₂, hlinks₂⟩, ⟨tail, hout₂⟩, hrefs, hsame⟩ :=
    appendIn_spec hlinks hbuilt.chain hbuilt.input (hbuilt.inputPositive.mpr hinput) hlength hll
  let s₃ := store (slotOf out₂) none s₂
  have hsame₃ : SameBuffers s₁ s₃ := hsame.trans (store_same _ _ _)
  have hrefs₃ : refs s₃ out₂ = refs s₁ (out ++ new) := by
    rw [refs, store_linkBuf]
    exact hrefs
  have hpositive : Positive s₁ (refs s₁ (out ++ new)) := by
    rw [refs_append]
    intro b hb
    rcases List.mem_append.mp hb with hb | hb
    · exact hbuilt.positive b hb
    · exact hbuilt.inputPositive.mpr hinput b hb
  have hs₃ : Holds s₃ out₂ := by
    refine ⟨⟨free₂, hlinks₂.store hout₂ none⟩, ?_, ?_, ?_, ?_, ?_⟩
    · exact (segment_store (List.nodup_append.mp hlinks₂.nodup).1 hout₂ none).1
    · rw [hrefs₃]
      exact hbuilt.nodup
    · rw [hrefs₃, hsame₃.bufs]
      exact hbuilt.bound
    · rw [hrefs₃, Positive, hsame₃.buf]
      exact hpositive
    · rw [hsame₃.error]
      exact hbuilt.error
  obtain ⟨code, s', out', hsend, hcode, hs', hbytes, hagain, hsent⟩ :=
    sendOut_spec hs₃ locals₂ head call.count
  refine ⟨code, s', out', ?_, hcode, hs', ?_, hagain, ?_⟩
  · rw [hrun, happend, Option.bind_some]
    simp only [hll₂]
    exact hsend
  · rw [hbytes, bytesOf_eq s₃, hrefs₃, bufBytes, hsame₃.buf, hsame₃.wire]
    exact hbuilt.bytes
  · rw [hsame₃.wire, hsame₃.sent, hbuilt.wire, hbuilt.sent] at hsent
    exact hsent

/-- A call whose input has an empty buffer returns `NIGHT_ERROR`. -/
theorem runCall_error {s : State} {out : List ℕ} (hs : Holds s out) {call : Call}
    (hinput : ¬ ∀ b ∈ call.input, b.bytes ≠ []) :
    ∃ s', runCall s call = some (.error, s') := by
  obtain ⟨head, s₁, new, hbuild, hbuilt⟩ := exists_built hs call
  obtain ⟨locals, hll, hrun⟩ := runCall_eq hbuild hbuilt
  obtain ⟨free, hlinks⟩ := hbuilt.links
  have hlength : new.length ≤ s₁.links := by
    have hall := hlinks.length_le
    rw [List.length_append] at hall
    omega
  have hempty : ¬ Positive s₁ (refs s₁ new) := fun hpositive =>
    hinput (hbuilt.inputPositive.mp hpositive)
  obtain ⟨s₂, hfailed⟩ :=
    appendIn_failed hlinks hbuilt.chain hbuilt.input hempty hlength hll
  refine ⟨s₂, ?_⟩
  rw [hrun, hfailed]
  rfl

/-! ## All calls -/

theorem holds_freshState : Holds freshState [] where
  links := ⟨[], List.nodup_nil, by simp, rfl⟩
  chain := rfl
  nodup := List.nodup_nil
  bound := by simp [refs]
  positive := by simp [refs, Positive]
  error := rfl

theorem pendingBytes_eq {s : State} {out : List ℕ} (hs : Holds s out) :
    pendingBytes s = some (bytesOf s out) := by
  obtain ⟨free, hlinks⟩ := hs.links
  rw [pendingBytes, walk_eq_some hs.chain hlinks.length_le, Option.map_some]

/-- Links in `r->out` have bytes to send. -/
theorem bytesOf_eq_nil_iff {s : State} {out : List ℕ} (hs : Holds s out) :
    bytesOf s out = [] ↔ out = [] := by
  constructor
  · intro hnil
    rw [bytesOf, List.flatMap_eq_nil_iff] at hnil
    apply List.eq_nil_iff_forall_not_mem.mpr
    intro cl hcl
    exact hs.positive _ (List.mem_map_of_mem hcl) (hnil cl hcl)
  · rintro rfl
    rfl

/-- From any state between calls the law holds for the calls to come exactly when no
input has an empty buffer. -/
theorem lawful_iff_of_holds {s : State} {out : List ℕ} {before : List Byte}
    (hs : Holds s out) (hbefore : s.wire ++ bytesOf s out = before) (calls : List Call) :
    Lawful before s calls ↔ ∀ call ∈ calls, ∀ b ∈ call.input, b.bytes ≠ [] := by
  induction calls generalizing s out before with
  | nil => simp [Lawful]
  | cons call calls ih =>
      rw [Lawful, List.forall_mem_cons]
      by_cases hinput : ∀ b ∈ call.input, b.bytes ≠ []
      · obtain ⟨code, s', out', hrun, hcode, hs', hbytes, -⟩ := runCall_spec hs hinput
        rw [hbefore] at hbytes
        have hrest := ih hs' hbytes
        constructor
        · rintro ⟨code', s'', pending, hrun', -, -, -, hlawful⟩
          have heq : (code, s') = (code', s'') := Option.some.inj (hrun.symm.trans hrun')
          rw [← (Prod.mk.inj heq).2] at hlawful
          exact ⟨hinput, hrest.mp hlawful⟩
        · intro hinputs
          exact ⟨code, s', bytesOf s' out', hrun, hcode, pendingBytes_eq hs', hbytes,
            hrest.mpr hinputs.2⟩
      · obtain ⟨s', hrun⟩ := runCall_error hs hinput
        constructor
        · rintro ⟨code', s'', pending, hrun', hcode, -⟩
          have heq : (Code.error, s') = (code', s'') := Option.some.inj (hrun.symm.trans hrun')
          exact absurd (Prod.mk.inj heq).1.symm hcode
        · intro hinputs
          exact absurd hinputs.1 hinput

/-- A whole run obeys the law if and only if no buffer that was handed in is empty. -/
theorem lawful_iff (calls : List Call) :
    Lawful [] freshState calls ↔ ∀ call ∈ calls, ∀ b ∈ call.input, b.bytes ≠ [] :=
  lawful_iff_of_holds holds_freshState rfl calls

/-- A single last buffer without bytes, as after a response without a body. -/
theorem not_lawful_lastBuf :
    ¬ Lawful [] freshState
      [⟨[⟨⟨[], false, false, false, false, true⟩, fun _ => .inl rfl⟩], true, 0⟩] := by
  rw [Lawful]
  rintro ⟨code, s', pending, hrun, hcode, -⟩
  have herror : code = .error := by
    exact (Prod.mk.inj (Option.some.inj hrun)).1.symm
  exact hcode herror

end Night.WriteFilter
