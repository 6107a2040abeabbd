import Mathlib.Order.Lattice
import Mathlib.Data.List.Basic

/-!
# Words by their first difference

`Below u v` says that `u` is smaller than `v` at the first place where they differ.
Words that do not differ anywhere are prefixes of each other.  Whether a word comes
before the words it is a prefix of depends on the mark that is put behind it.
-/

namespace Night.PrefixOrder

variable {α : Type*} [LinearOrder α]

/-- The first difference of the words is one where the left letter is smaller. -/
def Below : List α → List α → Prop
  | a :: u, b :: v => a < b ∨ a = b ∧ Below u v
  | _, _ => False

variable {u v w : List α}

@[simp] theorem below_append (base u v : List α) :
    Below (base ++ u) (base ++ v) ↔ Below u v := by
  induction base with
  | nil => rfl
  | cons a base ih => simpa [Below, lt_irrefl] using ih

theorem not_below_self (u : List α) : ¬ Below u u := by
  induction u with
  | nil => exact id
  | cons a u ih => simp [Below, ih]

/-- What follows the first difference does not matter. -/
theorem Below.append (hbelow : Below u v) (u' v' : List α) : Below (u ++ u') (v ++ v') := by
  induction u generalizing v with
  | nil => exact hbelow.elim
  | cons a u ih =>
      cases v with
      | nil => exact hbelow.elim
      | cons b v =>
          rcases hbelow with hless | ⟨heq, hrest⟩
          · exact Or.inl hless
          · exact Or.inr ⟨heq, ih hrest⟩

theorem Below.extend {u' v' : List α} (hbelow : Below u v) (hu : u <+: u') (hv : v <+: v') :
    Below u' v' := by
  obtain ⟨moreU, rfl⟩ := hu
  obtain ⟨moreV, rfl⟩ := hv
  exact hbelow.append moreU moreV

theorem Below.trans (hleft : Below u v) (hright : Below v w) : Below u w := by
  induction u generalizing v w with
  | nil => exact hleft.elim
  | cons a u ih =>
      cases v with
      | nil => exact hleft.elim
      | cons b v =>
          cases w with
          | nil => exact hright.elim
          | cons c w =>
              rcases hleft with hab | ⟨rfl, hu⟩
              · rcases hright with hbc | ⟨rfl, _⟩
                · exact Or.inl (lt_trans hab hbc)
                · exact Or.inl hab
              · rcases hright with hbc | ⟨rfl, hv⟩
                · exact Or.inl hbc
                · exact Or.inr ⟨rfl, ih hu hv⟩

theorem Below.asymm (hbelow : Below u v) : ¬ Below v u :=
  fun hback => not_below_self u (hbelow.trans hback)

theorem Below.not_isPrefix (hbelow : Below u v) : ¬ u <+: v :=
  fun hpre => not_below_self v (hbelow.extend hpre List.prefix_rfl)

theorem Below.not_isPrefix' (hbelow : Below u v) : ¬ v <+: u :=
  fun hpre => not_below_self u (hbelow.extend List.prefix_rfl hpre)

theorem below_or_prefix (u v : List α) : Below u v ∨ Below v u ∨ u <+: v ∨ v <+: u := by
  induction u generalizing v with
  | nil => exact Or.inr (Or.inr (Or.inl List.nil_prefix))
  | cons a u ih =>
      cases v with
      | nil => exact Or.inr (Or.inr (Or.inr List.nil_prefix))
      | cons b v =>
          rcases lt_trichotomy a b with hless | rfl | hless
          · exact Or.inl (Or.inl hless)
          · rcases ih v with hbelow | hbelow | hpre | hpre
            · exact Or.inl (Or.inr ⟨rfl, hbelow⟩)
            · exact Or.inr (Or.inl (Or.inr ⟨rfl, hbelow⟩))
            · exact Or.inr (Or.inr (Or.inl (List.cons_prefix_cons.mpr ⟨rfl, hpre⟩)))
            · exact Or.inr (Or.inr (Or.inr (List.cons_prefix_cons.mpr ⟨rfl, hpre⟩)))
          · exact Or.inr (Or.inl (Or.inl hless))

/-- A prefix that is not the whole word. -/
def Shorter (u v : List α) : Prop := u <+: v ∧ u ≠ v

omit [LinearOrder α] in
theorem Shorter.not_isPrefix (hshort : Shorter u v) : ¬ v <+: u :=
  fun hpre => hshort.2 (hshort.1.eq_of_length_le hpre.length_le)

omit [LinearOrder α] in
theorem shorter_append (base u v : List α) : Shorter (base ++ u) (base ++ v) ↔ Shorter u v := by
  simp [Shorter]

omit [LinearOrder α] in
theorem Shorter.length_lt (hshort : Shorter u v) : u.length < v.length := by
  have hle := hshort.1.length_le
  have hne : u.length ≠ v.length := fun heq => hshort.2 (hshort.1.eq_of_length heq)
  omega

/-- How two words can stand to each other. -/
theorem below_or_shorter (u v : List α) :
    Below u v ∨ Below v u ∨ Shorter u v ∨ Shorter v u ∨ u = v := by
  by_cases heq : u = v
  · exact Or.inr (Or.inr (Or.inr (Or.inr heq)))
  · rcases below_or_prefix u v with hbelow | hbelow | hpre | hpre
    · exact Or.inl hbelow
    · exact Or.inr (Or.inl hbelow)
    · exact Or.inr (Or.inr (Or.inl ⟨hpre, heq⟩))
    · exact Or.inr (Or.inr (Or.inr (Or.inl ⟨hpre, Ne.symm heq⟩)))

/-! ## Words with a mark at their end -/

variable {stop : α}

/-- Behind a common beginning, the mark is compared with the next letter of the longer
word. -/
theorem below_mark_iff :
    Below (u ++ [stop]) (v ++ [stop]) ↔
      Below u v ∨ (∃ a rest, v = u ++ a :: rest ∧ stop < a) ∨
        ∃ a rest, u = v ++ a :: rest ∧ a < stop := by
  induction u generalizing v with
  | nil =>
      cases v with
      | nil => simp [Below]
      | cons b v => simp [Below]
  | cons a u ih =>
      cases v with
      | nil => simp [Below]
      | cons b v =>
          simp only [List.cons_append, Below, ih, List.cons.injEq]
          grind

/-- A word comes behind its extensions by letters below the mark, and before the others. -/
theorem below_mark_extension (a : α) (rest : List α) :
    (Below (u ++ a :: rest ++ [stop]) (u ++ [stop]) ↔ a < stop) ∧
      (Below (u ++ [stop]) (u ++ a :: rest ++ [stop]) ↔ stop < a) := by
  rw [List.append_assoc, below_append, below_append]
  constructor <;> simp [Below]

/-- The words that a word is a prefix of stand together. -/
theorem Below.prefix_between {base : List α} (hleft : Below (u ++ [stop]) (v ++ [stop]))
    (hright : Below (v ++ [stop]) (w ++ [stop])) (hu : base <+: u) (hw : base <+: w) :
    base <+: v := by
  rcases below_or_prefix base v with hbelow | hbelow | hpre | hpre
  · have hmarks : Below (w ++ [stop]) (v ++ [stop]) :=
      hbelow.extend (hw.trans (List.prefix_append w _)) (List.prefix_append v _)
    exact absurd hmarks hright.asymm
  · have hmarks : Below (v ++ [stop]) (u ++ [stop]) :=
      hbelow.extend (List.prefix_append v _) (hu.trans (List.prefix_append u _))
    exact absurd hmarks hleft.asymm
  · exact hpre
  · obtain ⟨rest, rfl⟩ := hpre
    cases rest with
    | nil => simp
    | cons a rest =>
        obtain ⟨moreU, rfl⟩ := hu
        obtain ⟨moreW, rfl⟩ := hw
        simp only [List.append_assoc, List.cons_append] at hleft hright
        have hlow : a < stop := by simpa [Below] using hleft
        have hhigh : stop < a := by simpa [Below] using hright
        exact absurd hlow (lt_asymm hhigh)

end Night.PrefixOrder
