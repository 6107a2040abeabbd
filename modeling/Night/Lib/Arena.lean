import Mathlib.Algebra.Group.Nat.Defs
import Mathlib.Data.List.Pairwise
import Mathlib.Order.Nat
import Mathlib.Tactic.Tauto

/-!
# Regions and arenas

An arena owns chunks of memory with a header and a cursor, and large regions of
their own.  It hands out regions: those behind the cursor of a chunk, which then
moves past them, and the large ones.  The lemmas say that every way to hand out
memory keeps what was handed out apart from each other and from the headers.
-/

namespace Night.Regions

/-! ## Regions -/

/-- The addresses from `addr` up to `addr + size`. -/
structure Region where
  addr : ℕ
  size : ℕ
  deriving DecidableEq, Repr

namespace Region

variable {r r' s s' : Region}

def stop (r : Region) : ℕ := r.addr + r.size

def Has (r : Region) (x : ℕ) : Prop := r.addr ≤ x ∧ x < r.stop

instance (r : Region) : DecidablePred r.Has := fun _ => inferInstanceAs (Decidable (_ ∧ _))

def Disjoint (r s : Region) : Prop := ∀ x, r.Has x → ¬ s.Has x

def Inside (r s : Region) : Prop := s.addr ≤ r.addr ∧ r.stop ≤ s.stop

theorem Disjoint.symm (hdisjoint : r.Disjoint s) : s.Disjoint r :=
  fun x hs hr => hdisjoint x hr hs

theorem Inside.has (hinside : r.Inside s) {x : ℕ} (hx : r.Has x) : s.Has x :=
  ⟨hinside.1.trans hx.1, hx.2.trans_le hinside.2⟩

theorem Inside.trans (hinside : r.Inside s) (houter : s.Inside s') : r.Inside s' :=
  ⟨houter.1.trans hinside.1, hinside.2.trans houter.2⟩

theorem Inside.refl (r : Region) : r.Inside r := ⟨Nat.le_refl _, Nat.le_refl _⟩

theorem Inside.size_le (hinside : r.Inside s) : r.size ≤ s.size := by
  have hstop : r.addr + r.size ≤ s.addr + s.size := hinside.2
  have haddr := hinside.1
  omega

/-- Parts of disjoint regions are disjoint. -/
theorem Disjoint.mono (hdisjoint : r'.Disjoint s') (hr : r.Inside r') (hs : s.Inside s') :
    r.Disjoint s :=
  fun x hrx hsx => hdisjoint x (hr.has hrx) (hs.has hsx)

theorem disjoint_of_le (hle : r.stop ≤ s.addr) : r.Disjoint s := by
  intro x hr hs
  have hbelow := hr.2
  have habove := hs.1
  omega

/-- Disjoint regions that are not empty start at different addresses. -/
theorem Disjoint.addr_ne (hdisjoint : r.Disjoint s) (hr : 0 < r.size) (hs : 0 < s.size) :
    r.addr ≠ s.addr := by
  intro heq
  apply hdisjoint r.addr
  · exact ⟨Nat.le_refl _, Nat.lt_add_of_pos_right hr⟩
  · exact ⟨heq.ge, heq ▸ Nat.lt_add_of_pos_right hs⟩

end Region

open Region

/-! ## Arenas -/

/-- A chunk of memory: its first `header` bytes are the arena's own, and the bytes from
`cursor` on are free. -/
structure Chunk where
  whole : Region
  header : ℕ
  cursor : ℕ
  deriving DecidableEq, Repr

namespace Chunk

structure Valid (c : Chunk) : Prop where
  header_pos : 0 < c.header
  low : c.whole.addr + c.header ≤ c.cursor
  high : c.cursor ≤ c.whole.stop

def own (c : Chunk) : Region := ⟨c.whole.addr, c.header⟩

/-- A region between the header and the cursor. -/
def Holds (c : Chunk) (r : Region) : Prop :=
  c.whole.addr + c.header ≤ r.addr ∧ r.stop ≤ c.cursor

theorem Holds.inside {c : Chunk} {r : Region} (hholds : c.Holds r) (hvalid : c.Valid) :
    r.Inside c.whole :=
  ⟨(Nat.le_add_right _ _).trans hholds.1, hholds.2.trans hvalid.high⟩

theorem own_inside {c : Chunk} (hvalid : c.Valid) : c.own.Inside c.whole :=
  ⟨Nat.le_refl _, hvalid.low.trans hvalid.high⟩

theorem Holds.disjoint_own {c : Chunk} {r : Region} (hholds : c.Holds r) : r.Disjoint c.own := by
  apply Region.Disjoint.symm
  exact disjoint_of_le hholds.1

end Chunk

/-- What an arena owns and what it has handed out. -/
structure Arena where
  chunks : List Chunk
  large : List Region
  handed : List Region

namespace Arena

def owned (a : Arena) : List Region := a.chunks.map Chunk.whole ++ a.large

structure Sound (a : Arena) : Prop where
  valid : ∀ c ∈ a.chunks, c.Valid
  owned : a.owned.Pairwise Region.Disjoint
  handed : a.handed.Pairwise Region.Disjoint
  inside : ∀ r ∈ a.handed, (∃ c ∈ a.chunks, c.Holds r) ∨ r ∈ a.large

variable {a : Arena} {before after chunks : List Chunk} {c : Chunk}
variable {large handed left right : List Region} {r : Region}

/-- Everything handed out lies in a region that the arena owns. -/
theorem Sound.exists_owner (hsound : a.Sound) (hr : r ∈ a.handed) :
    ∃ owner ∈ a.owned, r.Inside owner := by
  rcases hsound.inside r hr with ⟨c, hc, hholds⟩ | hlarge
  · refine ⟨c.whole, ?_, hholds.inside (hsound.valid c hc)⟩
    exact List.mem_append_left _ (List.mem_map_of_mem hc)
  · exact ⟨r, List.mem_append_right _ hlarge, Inside.refl r⟩

/-- What was handed out is disjoint from the headers of all chunks. -/
theorem Sound.disjoint_own (hsound : a.Sound) (hr : r ∈ a.handed) (hc : c ∈ a.chunks) :
    r.Disjoint c.own := by
  have hown := Chunk.own_inside (hsound.valid c hc)
  have hmem : c.whole ∈ a.owned := List.mem_append_left _ (List.mem_map_of_mem hc)
  rcases hsound.inside r hr with ⟨d, hd, hholds⟩ | hlarge
  · have hdmem : d.whole ∈ a.owned := List.mem_append_left _ (List.mem_map_of_mem hd)
    by_cases hdc : d = c
    · exact (hdc ▸ hholds).disjoint_own
    · have hpairs := (List.pairwise_append.mp hsound.owned).1
      have hsymm : Std.Symm fun c d : Chunk => c.whole.Disjoint d.whole :=
        ⟨fun _ _ hdisjoint => hdisjoint.symm⟩
      have hdisjoint := (List.pairwise_map.mp hpairs).forall hd hc hdc
      exact hdisjoint.mono (hholds.inside (hsound.valid d hd)) hown
  · have hdisjoint := (List.pairwise_append.mp hsound.owned).2.2 c.whole
      (List.mem_map_of_mem hc) r hlarge
    exact hdisjoint.symm.mono (Inside.refl r) hown

/-- The chunks in front of and behind a chunk, and the large regions, are apart from it. -/
theorem Sound.apart (hsound : Sound ⟨before ++ c :: after, large, handed⟩) :
    (∀ d ∈ before ++ after, d.whole.Disjoint c.whole) ∧ ∀ r ∈ large, r.Disjoint c.whole := by
  obtain ⟨hchunks, -, hlarge⟩ := List.pairwise_append.mp hsound.owned
  constructor
  · intro d hd
    have hpairs := List.pairwise_append.mp (List.pairwise_map.mp hchunks)
    rcases List.mem_append.mp hd with hbefore | hafter
    · exact hpairs.2.2 d hbefore c List.mem_cons_self
    · exact ((List.pairwise_cons.mp hpairs.2.1).1 d hafter).symm
  · intro r hr
    refine (hlarge c.whole ?_ r hr).symm
    simp

/-- A region handed out from elsewhere is apart from the chunk. -/
theorem Sound.holds_or_disjoint (hsound : Sound ⟨before ++ c :: after, large, handed⟩)
    (hr : r ∈ handed) : c.Holds r ∨ r.Disjoint c.whole := by
  obtain ⟨hchunks, hlarge⟩ := hsound.apart
  rcases hsound.inside r hr with ⟨d, hd, hholds⟩ | hmem
  · have hinside := hholds.inside (hsound.valid d hd)
    have hcases : d = c ∨ d ∈ before ++ after := by
      simp only [List.mem_append, List.mem_cons] at hd ⊢
      tauto
    rcases hcases with rfl | hother
    · exact .inl hholds
    · exact .inr ((hchunks d hother).mono hinside (Inside.refl _))
  · exact .inr (hlarge r hmem)

/-- Moving the cursor of one chunk forward. -/
theorem Sound.move (hsound : Sound ⟨before ++ c :: after, large, handed⟩) {cursor : ℕ}
    (hlow : c.cursor ≤ cursor) (hhigh : cursor ≤ c.whole.stop) :
    Sound ⟨before ++ { c with cursor := cursor } :: after, large, handed⟩ where
  valid d hd := by
    simp only [List.mem_append, List.mem_cons] at hd
    have hc := hsound.valid c (by simp)
    rcases hd with hd | rfl | hd
    · exact hsound.valid d (by simp [hd])
    · exact ⟨hc.header_pos, hc.low.trans hlow, hhigh⟩
    · exact hsound.valid d (by simp [hd])
  owned := by
    have howned := hsound.owned
    simpa [Arena.owned] using howned
  handed := hsound.handed
  inside r hr := by
    refine (hsound.inside r hr).imp_left fun ⟨d, hd, hholds⟩ => ?_
    simp only [List.mem_append, List.mem_cons] at hd
    rcases hd with hd | rfl | hd
    · exact ⟨d, by simp [hd], hholds⟩
    · exact ⟨_, List.mem_append_right _ List.mem_cons_self, hholds.1, hholds.2.trans hlow⟩
    · exact ⟨d, by simp [hd], hholds⟩

/-- A region behind the cursor is handed out. -/
theorem Sound.take (hsound : Sound ⟨before ++ c :: after, large, handed⟩) {m size : ℕ}
    (hlow : c.cursor ≤ m) (hhigh : m + size ≤ c.whole.stop) :
    Sound ⟨before ++ { c with cursor := m + size } :: after, large, ⟨m, size⟩ :: handed⟩ := by
  have hmove := hsound.move (hlow.trans (Nat.le_add_right m size)) hhigh
  have hvalid := hsound.valid c (by simp)
  have hnew : Region.Inside ⟨m, size⟩ c.whole :=
    ⟨(Nat.le_add_right _ _).trans (hvalid.low.trans hlow), hhigh⟩
  refine ⟨hmove.valid, hmove.owned, List.pairwise_cons.mpr ⟨?_, hsound.handed⟩, ?_⟩
  · intro r hr
    rcases hsound.holds_or_disjoint hr with hholds | hdisjoint
    · exact (disjoint_of_le (hholds.2.trans hlow)).symm
    · exact hdisjoint.symm.mono hnew (Inside.refl r)
  · intro r hr
    rcases List.mem_cons.mp hr with rfl | hr
    · exact .inl ⟨_, List.mem_append_right _ List.mem_cons_self, hvalid.low.trans hlow,
        Nat.le_refl _⟩
    · exact hmove.inside r hr

/-- A chunk from elsewhere is added behind the others. -/
theorem Sound.addChunk (hsound : Sound ⟨chunks, large, handed⟩) (hvalid : c.Valid)
    (hfresh : ∀ owner ∈ chunks.map Chunk.whole ++ large, owner.Disjoint c.whole) :
    Sound ⟨chunks ++ [c], large, handed⟩ where
  valid d hd := by
    rcases List.mem_append.mp hd with hd | hd
    · exact hsound.valid d hd
    · exact List.mem_singleton.mp hd ▸ hvalid
  owned := by
    obtain ⟨hchunks, hlarge, hboth⟩ := List.pairwise_append.mp hsound.owned
    rw [Arena.owned, List.map_append]
    refine List.pairwise_append.mpr ⟨List.pairwise_append.mpr ⟨hchunks, by simp, ?_⟩, hlarge, ?_⟩
    · intro r hr s hs
      rw [List.map_singleton, List.mem_singleton] at hs
      exact hs ▸ hfresh r (List.mem_append_left _ hr)
    · intro r hr s hs
      rcases List.mem_append.mp hr with hr | hr
      · exact hboth r hr s hs
      · rw [List.map_singleton, List.mem_singleton] at hr
        exact hr ▸ (hfresh s (List.mem_append_right _ hs)).symm
  handed := hsound.handed
  inside r hr := (hsound.inside r hr).imp_left fun ⟨d, hd, hholds⟩ =>
    ⟨d, List.mem_append_left _ hd, hholds⟩

/-- A chunk is added with a region that has been handed out of it already. -/
theorem Sound.addTaken (hsound : Sound ⟨chunks, large, handed⟩) (hvalid : c.Valid)
    (hfresh : ∀ owner ∈ chunks.map Chunk.whole ++ large, owner.Disjoint c.whole)
    (hholds : c.Holds r) : Sound ⟨chunks ++ [c], large, r :: handed⟩ := by
  have hadd := hsound.addChunk hvalid hfresh
  refine ⟨hadd.valid, hadd.owned, List.pairwise_cons.mpr ⟨?_, hsound.handed⟩, ?_⟩
  · intro s hs
    obtain ⟨owner, howner, hinside⟩ := hsound.exists_owner hs
    exact (hfresh owner howner).symm.mono (hholds.inside hvalid) hinside
  · intro s hs
    rcases List.mem_cons.mp hs with rfl | hs
    · exact .inl ⟨c, List.mem_append_right _ List.mem_cons_self, hholds⟩
    · exact hadd.inside s hs

/-- A region from elsewhere is handed out. -/
theorem Sound.addLarge (hsound : Sound ⟨chunks, large, handed⟩)
    (hfresh : ∀ owner ∈ chunks.map Chunk.whole ++ large, owner.Disjoint r) :
    Sound ⟨chunks, r :: large, r :: handed⟩ where
  valid := hsound.valid
  owned := by
    obtain ⟨hchunks, hlarge, hboth⟩ := List.pairwise_append.mp hsound.owned
    refine List.pairwise_append.mpr ⟨hchunks, List.pairwise_cons.mpr ⟨?_, hlarge⟩, ?_⟩
    · intro s hs
      exact (hfresh s (List.mem_append_right _ hs)).symm
    · intro s hs s' hs'
      rcases List.mem_cons.mp hs' with rfl | hs'
      · exact hfresh s (List.mem_append_left _ hs)
      · exact hboth s hs s' hs'
  handed := by
    refine List.pairwise_cons.mpr ⟨?_, hsound.handed⟩
    intro s hs
    obtain ⟨owner, howner, hinside⟩ := hsound.exists_owner hs
    exact (hfresh owner howner).symm.mono (Inside.refl r) hinside
  inside s hs := by
    rcases List.mem_cons.mp hs with rfl | hs
    · exact .inr List.mem_cons_self
    · exact (hsound.inside s hs).imp_right (List.mem_cons_of_mem r)

/-- The order in which regions were handed out does not matter. -/
theorem Sound.perm (hsound : Sound ⟨chunks, large, handed⟩) {handed' : List Region}
    (hperm : handed.Perm handed') : Sound ⟨chunks, large, handed'⟩ where
  valid := hsound.valid
  owned := hsound.owned
  handed := hsound.handed.perm hperm fun hdisjoint => hdisjoint.symm
  inside r hr := hsound.inside r (hperm.mem_iff.mpr hr)

theorem Sound.permLarge (hsound : Sound ⟨chunks, large, handed⟩) {large' : List Region}
    (hperm : large.Perm large') : Sound ⟨chunks, large', handed⟩ where
  valid := hsound.valid
  owned := hsound.owned.perm (hperm.append_left _) fun hdisjoint => hdisjoint.symm
  handed := hsound.handed
  inside r hr := (hsound.inside r hr).imp_right hperm.mem_iff.mp

/-- A region need not be remembered. -/
theorem Sound.forget (hsound : Sound ⟨chunks, large, handed⟩) {handed' : List Region}
    (hsub : handed'.Sublist handed) : Sound ⟨chunks, large, handed'⟩ where
  valid := hsound.valid
  owned := hsound.owned
  handed := hsound.handed.sublist hsub
  inside r hr := hsound.inside r (hsub.subset hr)

/-- Large regions are given back when nothing that is handed out lies in them. -/
theorem Sound.dropLarge (hsound : Sound ⟨chunks, large, handed⟩) {large' : List Region}
    (hsub : large'.Sublist large) (hheld : ∀ r ∈ handed, ∃ c ∈ chunks, c.Holds r) :
    Sound ⟨chunks, large', handed⟩ where
  valid := hsound.valid
  owned := hsound.owned.sublist (hsub.append_left _)
  handed := hsound.handed
  inside r hr := .inl (hheld r hr)

/-- The last region of a chunk grows into its free bytes.  That a region is the last
one shows only from its end, which is at the cursor. -/
theorem Sound.grow (hsound : Sound ⟨before ++ c :: after, large, left ++ r :: right⟩)
    {more : ℕ} (hlast : r.stop = c.cursor) (hhigh : c.cursor + more ≤ c.whole.stop)
    (hpos : 0 < r.size ∨ more = 0) :
    Sound ⟨before ++ { c with cursor := c.cursor + more } :: after, large,
      left ++ ⟨r.addr, r.size + more⟩ :: right⟩ := by
  have hmove := hsound.move (Nat.le_add_right c.cursor more) hhigh
  rcases hpos with hpos | rfl
  swap
  · exact hmove
  have hvalid := hsound.valid c (by simp)
  have hmem : r ∈ left ++ r :: right := by simp
  have hholds : c.Holds r := by
    rcases hsound.holds_or_disjoint hmem with hholds | hdisjoint
    · exact hholds
    · -- the byte in front of the cursor would be in two places
      have hlow := hvalid.low
      have hheader := hvalid.header_pos
      have hhigh := hvalid.high
      have hstop : r.addr + r.size = c.cursor := hlast
      refine absurd ⟨?_, ?_⟩ (hdisjoint (c.cursor - 1) ⟨?_, ?_⟩)
      all_goals
        simp only [Region.stop] at *
        omega
  have hinside := hholds.inside hvalid
  have hgrown : ∀ s ∈ left ++ r :: right, s.Disjoint r → s.Disjoint ⟨r.addr, r.size + more⟩ := by
    intro s hs hdisjoint x hsx hx
    by_cases hold : x < r.stop
    · exact hdisjoint x hsx ⟨hx.1, hold⟩
    · rcases hsound.holds_or_disjoint hs with hs | hs
      · have hbelow := hsx.2.trans_le hs.2
        omega
      · apply hs x hsx
        have hstop : x < r.addr + (r.size + more) := hx.2
        have hend : r.addr + r.size = c.cursor := hlast
        exact ⟨hinside.1.trans hx.1, by omega⟩
  refine ⟨hmove.valid, hmove.owned, ?_, ?_⟩
  · have hpairs := List.pairwise_append.mp hsound.handed
    have hright := List.pairwise_cons.mp hpairs.2.1
    refine List.pairwise_append.mpr ⟨hpairs.1, List.pairwise_cons.mpr ⟨?_, hright.2⟩, ?_⟩
    · intro s hs
      exact (hgrown s (by simp [hs]) (hright.1 s hs).symm).symm
    · intro s hs s' hs'
      rcases List.mem_cons.mp hs' with rfl | hs'
      · exact hgrown s (by simp [hs]) (hpairs.2.2 s hs r List.mem_cons_self)
      · exact hpairs.2.2 s hs s' (List.mem_cons_of_mem r hs')
  · intro s hs
    have hcases : s = ⟨r.addr, r.size + more⟩ ∨ s ∈ left ++ r :: right := by
      simp only [List.mem_append, List.mem_cons] at hs ⊢
      tauto
    rcases hcases with rfl | hs
    · refine .inl ⟨_, List.mem_append_right _ List.mem_cons_self, hholds.1, ?_⟩
      have hend : r.addr + r.size = c.cursor := hlast
      show r.addr + (r.size + more) ≤ c.cursor + more
      omega
    · exact hmove.inside s hs

end Arena

/-! ## The system's allocator -/

/-- What a program relies on when it asks the system for memory: an answer is apart from
everything it owns already. -/
structure Allocator where
  alloc : List Region → ℕ → Option ℕ
  fresh : ∀ {owned size addr}, alloc owned size = some addr →
    ∀ owner ∈ owned, owner.Disjoint ⟨addr, size⟩
  aligned : ∀ {owned size addr}, alloc owned size = some addr → addr % 16 = 0

/-- Requests for half of the address space are refused. -/
def Allocator.Limited (system : Allocator) : Prop :=
  ∀ {owned size addr}, system.alloc owned size = some addr → size < 2 ^ 63

theorem stop_le_foldr {owned : List Region} {owner : Region} (howner : owner ∈ owned) :
    owner.stop ≤ owned.foldr (fun r top => max r.stop top) 0 := by
  induction owned with
  | nil => cases howner
  | cons r owned ih =>
      rcases List.mem_cons.mp howner with rfl | howner
      · exact Nat.le_max_left _ _
      · exact (ih howner).trans (Nat.le_max_right _ _)

/-- The allocator that goes on above what is owned, for the sizes it accepts. -/
def Allocator.above (accepts : ℕ → Bool) : Allocator where
  alloc owned size :=
    if accepts size then
      some ((owned.foldr (fun r top => max r.stop top) 0 + 16) / 16 * 16)
    else none
  fresh := by
    intro owned size addr halloc owner howner
    split at halloc
    · apply disjoint_of_le
      rw [← Option.some.inj halloc]
      have hle := stop_le_foldr howner
      show _ ≤ _ / 16 * 16
      omega
    · cases halloc
  aligned := by
    intro owned size addr halloc
    split at halloc
    · rw [← Option.some.inj halloc, Nat.mul_mod_left]
    · cases halloc

end Night.Regions
