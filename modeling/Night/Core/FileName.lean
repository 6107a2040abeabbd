import Mathlib.Data.Int.Order.Basic
import Night.Core.Bytes
import Night.Lib.PrefixOrder

/-!
# `night_filename_cmp`

The function compares two names as `char` values with `A`–`Z` lowered.  Since `char` is
signed, a byte from `0x80` on is smaller than the `NUL` behind a shorter name.
-/

namespace Night.FileName

open Night.Bytes Night.PrefixOrder

/-- The value of `/` in a comparison is `0`. -/
def slash (c : ℤ) : ℤ := if c = '/'.toNat then 0 else c

/-- `night_filename_cmp`.  A name ends with a `NUL`.  The difference of the two
`uint64_t` values, as an `int`, is the difference of the `char` values. -/
def nightFilenameCmp (s1 s2 : List Byte) : ℕ → ℤ
  | 0 => 0
  | n + 1 =>
      let c1 := (nightTolower (s1.headD 0#8)).toInt
      let c2 := (nightTolower (s2.headD 0#8)).toInt
      if c1 = c2 then
        if c1 ≠ 0 then nightFilenameCmp s1.tail s2.tail n else 0
      else if c1 = 0 ∨ c2 = 0 then c1 - c2
      else slash c1 - slash c2

/-! ## The order of the bytes -/

/-- The place of a byte in the order of `night_filename_cmp`: `/` is directly behind
`NUL`. -/
def rank (c : ℤ) : ℤ := if c = '/'.toNat then 1 else if 0 < c then c + 1 else c

def key (ch : Byte) : ℤ := rank (nightTolower ch).toInt

abbrev keys (name : List Byte) : List ℤ := name.map key

def lower (name : List Byte) : List Byte := name.map nightTolower

theorem rank_inj {c1 c2 : ℤ} : rank c1 = rank c2 ↔ c1 = c2 := by
  have hslash : ('/'.toNat : ℤ) = 47 := rfl
  rw [rank, rank, hslash]
  constructor
  · intro heq
    split at heq <;> split at heq <;> omega
  · rintro rfl
    rfl

theorem key_eq_iff {a b : Byte} : key a = key b ↔ nightTolower a = nightTolower b := by
  rw [key, key, rank_inj, BitVec.toInt_inj]

theorem rank_eq_zero {c : ℤ} : rank c = 0 ↔ c = 0 := by
  have hslash : ('/'.toNat : ℤ) = 47 := rfl
  rw [rank, hslash]
  split <;> omega

theorem prefix_keys_iff {u v : List Byte} : keys u <+: keys v ↔ lower u <+: lower v := by
  induction u generalizing v with
  | nil => simp [lower]
  | cons a u ih =>
      cases v with
      | nil => simp [lower]
      | cons b v =>
          simp only [lower, List.map_cons, List.cons_prefix_cons, key_eq_iff]
          exact and_congr_right fun _ => ih

theorem keys_eq_iff {u v : List Byte} : keys u = keys v ↔ lower u = lower v := by
  constructor
  · intro heq
    have hpre : lower u <+: lower v := prefix_keys_iff.mp (heq ▸ List.prefix_rfl)
    apply hpre.eq_of_length
    simpa [lower] using congrArg List.length heq
  · intro heq
    have hpre : keys u <+: keys v := prefix_keys_iff.mpr (heq ▸ List.prefix_rfl)
    apply hpre.eq_of_length
    simpa [lower] using congrArg List.length heq

/-- A name without `NUL`. -/
def Proper (name : List Byte) : Prop := ∀ ch ∈ name, ch ≠ 0#8

theorem key_eq_zero {ch : Byte} : key ch = 0 ↔ ch = 0#8 := by
  have hzero : key 0#8 = 0 := by decide
  rw [← hzero, key_eq_iff]
  revert ch
  decide

/-- Bytes from `0x80` on are below the `NUL`, the other ones above. -/
theorem key_neg_iff {ch : Byte} : key ch < 0 ↔ 128 ≤ ch.toNat := by
  revert ch
  decide

/-! ## What the comparison says -/

/-- What is returned for two different values. -/
theorem difference_sign {c1 c2 : ℤ} (hne : c1 ≠ c2) :
    (rank c1 < rank c2 ∧
        (if c1 = 0 ∨ c2 = 0 then c1 - c2 else slash c1 - slash c2) < 0) ∨
      (rank c2 < rank c1 ∧
        0 < if c1 = 0 ∨ c2 = 0 then c1 - c2 else slash c1 - slash c2) := by
  have hslash : ('/'.toNat : ℤ) = 47 := rfl
  rw [rank, rank, slash, slash, hslash]
  grind

/-- One turn of the loop. -/
theorem nightFilenameCmp_succ (s1 s2 : List Byte) (n : ℕ) :
    (key (s1.headD 0#8) < key (s2.headD 0#8) ∧ nightFilenameCmp s1 s2 (n + 1) < 0) ∨
      (key (s2.headD 0#8) < key (s1.headD 0#8) ∧ 0 < nightFilenameCmp s1 s2 (n + 1)) ∨
      (key (s1.headD 0#8) = key (s2.headD 0#8) ∧ (key (s1.headD 0#8) ≠ 0 →
        nightFilenameCmp s1 s2 (n + 1) = nightFilenameCmp s1.tail s2.tail n)) := by
  rw [nightFilenameCmp]
  by_cases heq : (nightTolower (s1.headD 0#8)).toInt = (nightTolower (s2.headD 0#8)).toInt
  · right
    right
    have hkey : key (s1.headD 0#8) = key (s2.headD 0#8) := congrArg rank heq
    refine ⟨hkey, ?_⟩
    intro hne
    have hnonzero : (nightTolower (s1.headD 0#8)).toInt ≠ 0 := fun hzero =>
      hne (rank_eq_zero.mpr hzero)
    simp only [if_pos heq, if_pos hnonzero]
  · simp only [if_neg heq]
    rcases difference_sign heq with hless | hless
    · exact Or.inl hless
    · exact Or.inr (Or.inl hless)

/-- The bytes up to the end of the shorter word. -/
theorem nightFilenameCmp_cases (uri : List Byte) {name : List Byte} (hname : Proper name) :
    (Below (keys uri) (keys name) ∧
        nightFilenameCmp uri name (min uri.length name.length) < 0) ∨
      (Below (keys name) (keys uri) ∧
        0 < nightFilenameCmp uri name (min uri.length name.length)) ∨
      ((keys uri <+: keys name ∨ keys name <+: keys uri) ∧
        nightFilenameCmp uri name (min uri.length name.length) = 0) := by
  induction uri generalizing name with
  | nil => exact Or.inr (Or.inr ⟨Or.inl List.nil_prefix, by simp [nightFilenameCmp]⟩)
  | cons a uri ih =>
      cases name with
      | nil => exact Or.inr (Or.inr ⟨Or.inr List.nil_prefix, by simp [nightFilenameCmp]⟩)
      | cons b name =>
          have hmin : min (a :: uri).length (b :: name).length =
              min uri.length name.length + 1 := by simp
          rw [hmin]
          rcases nightFilenameCmp_succ (a :: uri) (b :: name) (min uri.length name.length) with
            ⟨hkey, hcmp⟩ | ⟨hkey, hcmp⟩ | ⟨hkey, hcmp⟩
          · exact Or.inl ⟨Or.inl hkey, hcmp⟩
          · exact Or.inr (Or.inl ⟨Or.inl hkey, hcmp⟩)
          · simp only [List.headD_cons, List.tail_cons] at hkey hcmp
            have hb : key b ≠ 0 := fun hzero => hname b (by simp) (key_eq_zero.mp hzero)
            rw [hcmp (hkey ▸ hb)]
            simp only [List.map_cons, Below, hkey, lt_irrefl, false_or, true_and,
              List.cons_prefix_cons]
            exact ih fun ch hch => hname ch (by simp [hch])

/-- Two names to one byte behind the shorter one. -/
theorem nightFilenameCmp_names {u v : List Byte} (hu : Proper u) (hv : Proper v) :
    (Below (keys u ++ [0]) (keys v ++ [0]) ∧
        nightFilenameCmp u v (min u.length v.length + 1) < 0) ∨
      (Below (keys v ++ [0]) (keys u ++ [0]) ∧
        0 < nightFilenameCmp u v (min u.length v.length + 1)) ∨
      (keys u = keys v ∧ nightFilenameCmp u v (min u.length v.length + 1) = 0) := by
  have hnul : key 0#8 = 0 := by decide
  have hturn := nightFilenameCmp_succ u v (min u.length v.length)
  induction u generalizing v with
  | nil =>
      cases v with
      | nil => exact Or.inr (Or.inr ⟨rfl, by decide⟩)
      | cons b v =>
          have hb : key b ≠ 0 := fun hzero => hv b (by simp) (key_eq_zero.mp hzero)
          rcases hturn with ⟨hkey, hcmp⟩ | ⟨hkey, hcmp⟩ | ⟨hkey, _⟩
          · exact Or.inl ⟨Or.inl (hnul ▸ hkey), hcmp⟩
          · exact Or.inr (Or.inl ⟨Or.inl (hnul ▸ hkey), hcmp⟩)
          · exact absurd (hkey.symm.trans hnul) hb
  | cons a u ih =>
      have ha : key a ≠ 0 := fun hzero => hu a (by simp) (key_eq_zero.mp hzero)
      rcases hturn with ⟨hkey, hcmp⟩ | ⟨hkey, hcmp⟩ | ⟨hkey, hcmp⟩
      · cases v with
        | nil => exact Or.inl ⟨Or.inl (hnul ▸ hkey), hcmp⟩
        | cons b v => exact Or.inl ⟨Or.inl hkey, hcmp⟩
      · cases v with
        | nil => exact Or.inr (Or.inl ⟨Or.inl (hnul ▸ hkey), hcmp⟩)
        | cons b v => exact Or.inr (Or.inl ⟨Or.inl hkey, hcmp⟩)
      · cases v with
        | nil => exact absurd (hkey.trans hnul) ha
        | cons b v =>
            have hmin : min (a :: u).length (b :: v).length = min u.length v.length + 1 := by
              simp
            simp only [List.headD_cons, List.tail_cons] at hkey hcmp
            rw [hcmp ha, hmin]
            simp only [List.map_cons, List.cons_append, Below, hkey, lt_irrefl, false_or,
              true_and, List.cons.injEq]
            exact ih (fun ch hch => hu ch (by simp [hch])) (fun ch hch => hv ch (by simp [hch]))
              (nightFilenameCmp_succ u v _)

end Night.FileName
