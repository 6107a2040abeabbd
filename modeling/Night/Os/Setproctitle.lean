import Mathlib.Data.List.Forall2
import Night.Core.Bytes
import Night.Lib.CStrings

/-!
# Room for the process title

A title is written over the strings the process was started with, from `argv[0]` on.
`night_init_setproctitle` looks how far these strings reach without a gap, and moves the
environment strings that lie there into memory of their own.
-/

namespace Night.Setproctitle

open Bytes CStrings Memory

/-! ## The source -/

/-- The number of addresses, and of values of a `size_t`. -/
def addressSpace : ℕ := 2 ^ 64

inductive ReturnCode where
  | ok
  | error
deriving DecidableEq, Repr

/-- The process: its memory, the pointers before the NULL in `night_os_argv` and in `environ`,
and `night_os_argv_last`. -/
structure Process where
  memory : ℕ → Byte
  nightOsArgv : List ℕ
  environ : List ℕ
  nightOsArgvLast : ℕ

/-- `while (--n)` of `night_cpystrn`, entered with `n + 1`. -/
def cpystrnLoop (memory : ℕ → Byte) (dst src : ℕ) : ℕ → (ℕ → Byte) × ℕ
  | 0 => (store memory dst [0], dst)
  | n + 1 =>
    let memory := store memory dst [memory src]
    if memory dst = 0 then (memory, dst) else cpystrnLoop memory (dst + 1) (src + 1) n

def nightCpystrn (memory : ℕ → Byte) (dst src : ℕ) : ℕ → (ℕ → Byte) × ℕ
  | 0 => (memory, dst)
  | n + 1 => cpystrnLoop memory dst src n

/-- `size += strlen(environ[i]) + 1` over `environ`. -/
def environSize (memory : ℕ → Byte) : ℕ → List ℕ → Option ℕ
  | size, [] => some size
  | size, entry :: environ => do
    let len ← strlen memory addressSpace entry
    environSize memory ((size + (len + 1)) % addressSpace) environ

/-- The loop over `night_os_argv`. -/
def chaseArgv (memory : ℕ → Byte) : ℕ → List ℕ → Option ℕ
  | last, [] => some last
  | last, arg :: argv =>
    if last = arg then do
      let len ← strlen memory addressSpace arg
      chaseArgv memory (arg + len + 1) argv
    else chaseArgv memory last argv

/-- What the loop over `environ` changes beside its entries. -/
structure Moving where
  memory : ℕ → Byte
  p : ℕ
  last : ℕ

/-- The loop over `environ`. -/
def moveEnviron : Moving → List ℕ → Option (Moving × List ℕ)
  | moving, [] => some (moving, [])
  | moving, entry :: environ =>
    if moving.last = entry then do
      let len ← strlen moving.memory addressSpace entry
      let size := (len + 1) % addressSpace
      let memory := (nightCpystrn moving.memory moving.p entry size).1
      let (moving', environ') ← moveEnviron ⟨memory, moving.p + size, entry + size⟩ environ
      some (moving', moving.p :: environ')
    else do
      let (moving', environ') ← moveEnviron moving environ
      some (moving', entry :: environ')

def nightInitSetproctitle (malloc : ℕ → Option ℕ) (process : Process) :
    Option (ReturnCode × Process) := do
  let size ← environSize process.memory 0 process.environ
  match malloc size with
  | none => some (.error, process)
  | some p =>
    let last ← chaseArgv process.memory (process.nightOsArgv.headD 0) process.nightOsArgv
    let (moving, environ) ← moveEnviron ⟨process.memory, p, last⟩ process.environ
    some (.ok, { process with
      memory := moving.memory, environ := environ, nightOsArgvLast := moving.last - 1 })

/-! ## What it is for -/

/-- The strings a process is started with: no two overlap, wherever they lie. -/
structure Layout where
  memory : ℕ → Byte
  /-- `argv[0]`. -/
  first : CString
  /-- `argv[1]` and so on. -/
  arguments : List CString
  environ : List CString
  holds : ∀ s ∈ first :: arguments ++ environ, s.In memory
  apart : (first :: arguments ++ environ).Pairwise CString.Apart
  below : ∀ s ∈ first :: arguments ++ environ, s.stop ≤ addressSpace

namespace Layout

def argv (layout : Layout) : List CString := layout.first :: layout.arguments

def process (layout : Layout) : Process where
  memory := layout.memory
  nightOsArgv := layout.argv.map CString.start
  environ := layout.environ.map CString.start
  nightOsArgvLast := 0

end Layout

/-- The string does not reach into the addresses from `low` to below `high`. -/
def Clear (low high : ℕ) (s : CString) : Prop := s.stop ≤ low ∨ high ≤ s.start

/-- Memory that is allocated is not that of the strings. -/
def Fresh (malloc : ℕ → Option ℕ) (layout : Layout) : Prop :=
  ∀ size block, malloc size = some block →
    ∀ s ∈ layout.argv ++ layout.environ, Clear block (block + size) s

/-- An entry of `environ` that was the string `s`: its text is still there, it is either the
old one or in the block, and the title does not overwrite it. -/
structure Entry (first block size last : ℕ) (memory : ℕ → Byte) (s : CString) (entry : ℕ) :
    Prop where
  text : (s.moveTo entry).In memory
  place : entry = s.start ∨ block ≤ entry ∧ entry + s.size ≤ block + size
  clear : Clear first (last + 1) (s.moveTo entry)

/-- The process after the call, with a block of `size` bytes allocated. -/
structure Prepared (layout : Layout) (block size : ℕ) (after : Process) : Prop where
  /-- The strings copied need no more than the block, and nothing else is written. -/
  copied : ∃ moved, moved.Sublist layout.environ ∧ total moved ≤ size ∧
    ∀ address, (address < block ∨ block + total moved ≤ address) →
      after.memory address = layout.memory address
  argv : after.nightOsArgv = layout.argv.map CString.start
  environ : List.Forall₂
    (Entry layout.first.start block size after.nightOsArgvLast after.memory)
    layout.environ after.environ
  first : layout.first.start ≤ after.nightOsArgvLast
  /-- The title stays in the memory of the strings. -/
  covered : ∀ address, layout.first.start ≤ address → address ≤ after.nightOsArgvLast →
    ∃ s ∈ layout.argv ++ layout.environ, s.start ≤ address ∧ address < s.stop

/-! ## Copies -/

variable {memory memory' : ℕ → Byte} {s t : CString} {p : ℕ}

theorem cpystrnLoop_load {text : List Byte} {dst src : ℕ} (hnonzero : ∀ ch ∈ text, ch ≠ 0)
    (hload : load memory src (text.length + 1) = text ++ [0])
    (hclear : src + text.length < dst ∨ dst + text.length < src) :
    cpystrnLoop memory dst src text.length =
      (store memory dst (text ++ [0]), dst + text.length) := by
  induction text generalizing memory dst src with
  | nil => rfl
  | cons ch text ih =>
    rw [List.length_cons] at hclear hload ⊢
    rw [load_succ] at hload
    obtain ⟨hch, hrest⟩ := List.cons.inj hload
    have hne : store memory dst [ch] dst ≠ 0 := by
      rw [store, if_pos ⟨le_rfl, by simp⟩, Nat.sub_self, List.getD_cons_zero]
      exact hnonzero ch List.mem_cons_self
    have hload' : load (store memory dst [ch]) (src + 1) (text.length + 1) = text ++ [0] := by
      rw [load_store_of_disjoint (by rw [List.length_singleton]; omega)]
      exact hrest
    rw [cpystrnLoop, hch]
    change (if store memory dst [ch] dst = 0 then _ else _) = _
    rw [if_neg hne, ih (fun ch hmem => hnonzero ch (List.mem_cons_of_mem _ hmem)) hload'
      (by omega), List.cons_append, store_cons]
    congr 1
    omega

/-- The whole string is copied, with its NUL. -/
theorem nightCpystrn_eq (hin : s.In memory) (hclear : Clear p (p + s.size) s) :
    nightCpystrn memory p s.start s.size =
      (store memory p s.bytes, p + s.text.length) := by
  rw [CString.size, nightCpystrn]
  apply cpystrnLoop_load s.nonzero hin
  rw [Clear, CString.stop, CString.size] at hclear
  omega

theorem size_lt_of_stop_le (hbelow : s.stop ≤ addressSpace) : s.text.length < addressSpace := by
  rw [CString.stop, CString.size] at hbelow
  omega

theorem environSize_eq {environ : List CString} {size : ℕ} (hholds : ∀ s ∈ environ, s.In memory)
    (hfits : size + total environ < addressSpace) :
    environSize memory size (environ.map CString.start) = some (size + total environ) := by
  induction environ generalizing size with
  | nil => rfl
  | cons s environ ih =>
    rw [total_cons] at hfits
    have hlen : s.text.length < addressSpace := by
      rw [CString.size] at hfits
      omega
    rw [List.map_cons, environSize, (hholds s List.mem_cons_self).strlen hlen, Option.bind_eq_bind,
      Option.bind_some]
    change environSize memory ((size + s.size) % addressSpace) _ = _
    rw [Nat.mod_eq_of_lt (by omega),
      ih (fun t ht => hholds t (List.mem_cons_of_mem _ ht)) (by omega), total_cons, Nat.add_assoc]

/-! ## How far the strings reach -/

/-- The area grew from `last` to `last'` over some of the strings. -/
structure Extended (strings : List CString) (low last last' : ℕ) : Prop where
  le : last ≤ last'
  clear : ∀ t : CString, Clear low last t → (∀ s ∈ strings, t.Apart s) → Clear low last' t
  covered : ∀ address, last ≤ address → address < last' →
    ∃ s ∈ strings, s.start ≤ address ∧ address < s.stop

variable {strings : List CString} {low last last' : ℕ}

theorem Clear.extend (hclear : Clear low s.start t) (hapart : t.Apart s) :
    Clear low s.stop t := by
  have hs := s.start_lt_stop
  have ht := t.start_lt_stop
  rw [Clear] at hclear ⊢
  rw [CString.Apart] at hapart
  omega

theorem Extended.refl (low last : ℕ) : Extended [] low last last where
  le := le_rfl
  clear := fun _ hclear _ => hclear
  covered := fun _ hle hlt => absurd hle (Nat.not_le_of_lt hlt)

/-- A string elsewhere. -/
theorem Extended.skip (hextended : Extended strings low last last') :
    Extended (s :: strings) low last last' where
  le := hextended.le
  clear := fun t hclear hapart =>
    hextended.clear t hclear fun r hr => hapart r (List.mem_cons_of_mem _ hr)
  covered := by
    intro address hle hlt
    obtain ⟨r, hr, hin⟩ := hextended.covered address hle hlt
    exact ⟨r, List.mem_cons_of_mem _ hr, hin⟩

/-- A string that starts where the area ends. -/
theorem Extended.cons (hextended : Extended strings low s.stop last') :
    Extended (s :: strings) low s.start last' where
  le := s.start_lt_stop.le.trans hextended.le
  clear := by
    intro t hclear hapart
    apply hextended.clear t (hclear.extend (hapart s List.mem_cons_self))
    exact fun r hr => hapart r (List.mem_cons_of_mem _ hr)
  covered := by
    intro address hle hlt
    by_cases hin : address < s.stop
    · exact ⟨s, List.mem_cons_self, hle, hin⟩
    · obtain ⟨r, hr, hin⟩ := hextended.covered address (Nat.le_of_not_lt hin) hlt
      exact ⟨r, List.mem_cons_of_mem _ hr, hin⟩

theorem chaseArgv_extended (low : ℕ) (hholds : ∀ s ∈ strings, s.In memory)
    (hbelow : ∀ s ∈ strings, s.stop ≤ addressSpace) (last : ℕ) :
    ∃ last', chaseArgv memory last (strings.map CString.start) = some last' ∧
      Extended strings low last last' := by
  induction strings generalizing last with
  | nil => exact ⟨last, rfl, Extended.refl low last⟩
  | cons s strings ih =>
    have ih := ih (fun t ht => hholds t (List.mem_cons_of_mem _ ht))
      fun t ht => hbelow t (List.mem_cons_of_mem _ ht)
    rw [List.map_cons]
    by_cases heq : last = s.start
    · have hlen := size_lt_of_stop_le (hbelow s List.mem_cons_self)
      obtain ⟨last', hchase, hextended⟩ := ih s.stop
      refine ⟨last', ?_, ?_⟩
      · rw [chaseArgv, if_pos heq, (hholds s List.mem_cons_self).strlen hlen]
        exact hchase
      · rw [heq]
        exact hextended.cons
    · obtain ⟨last', hchase, hextended⟩ := ih last
      exact ⟨last', by rw [chaseArgv, if_neg heq, hchase], hextended.skip⟩

/-! ## The strings that are moved -/

/-- What the loop over `environ` has done when it returns. -/
structure Moved (low : ℕ) (strings : List CString) (moving moving' : Moving) (environ : List ℕ) :
    Prop where
  extended : Extended strings low moving.last moving'.last
  copied : ∃ moved, moved.Sublist strings ∧ moving'.p = moving.p + total moved
  outside : ∀ address, (address < moving.p ∨ moving'.p ≤ address) →
    moving'.memory address = moving.memory address
  entries : List.Forall₂ (fun s entry => (s.moveTo entry).In moving'.memory ∧
    (entry = s.start ∧ Clear low moving'.last s ∨
      moving.p ≤ entry ∧ entry + s.size ≤ moving'.p)) strings environ

theorem moveEnviron_moved {moving : Moving} (hholds : ∀ s ∈ strings, s.In moving.memory)
    (hapart : strings.Pairwise CString.Apart) (hclear : ∀ s ∈ strings, Clear low moving.last s)
    (hroom : ∀ s ∈ strings, Clear moving.p (moving.p + total strings) s)
    (hfits : total strings < addressSpace) :
    ∃ moving' environ, moveEnviron moving (strings.map CString.start) = some (moving', environ) ∧
      Moved low strings moving moving' environ := by
  induction strings generalizing moving with
  | nil =>
    refine ⟨moving, [], rfl, Extended.refl _ _, ⟨[], List.Sublist.slnil, rfl⟩, ?_, .nil⟩
    exact fun address hout => rfl
  | cons s strings ih =>
    obtain ⟨hs, hrest⟩ := List.pairwise_cons.mp hapart
    rw [total_cons] at hfits hroom
    have hin := hholds s List.mem_cons_self
    have hsize : s.size = s.text.length + 1 := rfl
    have hclears : Clear moving.p (moving.p + (s.size + total strings)) s :=
      hroom s List.mem_cons_self
    rw [List.map_cons]
    by_cases heq : moving.last = s.start
    · -- the string is copied to `p`, before all later copies
      let moving₁ : Moving := ⟨store moving.memory moving.p s.bytes, moving.p + s.size, s.stop⟩
      have hsame : ∀ address, (address < moving.p ∨ moving.p + s.size ≤ address) →
          moving₁.memory address = moving.memory address := by
        intro address hout
        apply store_outside
        rwa [s.length_bytes]
      have hroom₁ : ∀ t ∈ strings, Clear moving₁.p (moving₁.p + total strings) t := by
        intro t ht
        have hold := hroom t (List.mem_cons_of_mem _ ht)
        change t.stop ≤ moving.p + s.size ∨ moving.p + s.size + total strings ≤ t.start
        rw [Clear] at hold
        omega
      have hholds₁ : ∀ t ∈ strings, t.In moving₁.memory := by
        intro t ht
        have hold := hroom t (List.mem_cons_of_mem _ ht)
        rw [Clear] at hold
        apply (hholds t (List.mem_cons_of_mem _ ht)).congr
        intro address hge hlt
        apply hsame
        omega
      have hclear₁ : ∀ t ∈ strings, Clear low moving₁.last t := by
        intro t ht
        have hold := hclear t (List.mem_cons_of_mem _ ht)
        rw [heq] at hold
        exact hold.extend (hs t ht).symm
      obtain ⟨moving', environ, hmove, hmoved⟩ := ih hholds₁ hrest hclear₁ hroom₁ (by omega)
      obtain ⟨moved, hsub, hp⟩ := hmoved.copied
      have hp' : moving'.p = moving.p + s.size + total moved := hp
      refine ⟨moving', moving.p :: environ, ?_, ?_, ⟨s :: moved, hsub.cons_cons s, ?_⟩, ?_, ?_⟩
      · have hcopy : nightCpystrn moving.memory moving.p s.start s.size =
            (store moving.memory moving.p s.bytes, moving.p + s.text.length) := by
          apply nightCpystrn_eq hin
          rw [Clear] at hclears ⊢
          omega
        rw [moveEnviron, if_pos heq, hin.strlen (show s.text.length < addressSpace by omega),
          Option.bind_eq_bind, Option.bind_some, ← hsize]
        simp only [Nat.mod_eq_of_lt (show s.size < addressSpace by omega), hcopy]
        change (moveEnviron moving₁ _ >>= _) = _
        rw [hmove]
        rfl
      · rw [heq]
        exact hmoved.extended.cons
      · rw [hp', total_cons, Nat.add_assoc]
      · intro address hout
        rw [hmoved.outside address (by change address < moving.p + s.size ∨ _; omega)]
        exact hsame address (by omega)
      · apply List.Forall₂.cons
        · refine ⟨?_, Or.inr ⟨le_rfl, by omega⟩⟩
          apply (CString.in_store moving.memory s moving.p).congr
          intro address hge hlt
          change address < moving.p + s.size at hlt
          exact hmoved.outside address (Or.inl hlt)
        · apply hmoved.entries.imp
          rintro t entry ⟨htext, hold | ⟨hge, hle⟩⟩
          · exact ⟨htext, Or.inl hold⟩
          · change moving.p + s.size ≤ entry at hge
            exact ⟨htext, Or.inr ⟨by omega, hle⟩⟩
    · have hroom₁ : ∀ t ∈ strings, Clear moving.p (moving.p + total strings) t := by
        intro t ht
        have hold := hroom t (List.mem_cons_of_mem _ ht)
        rw [Clear] at hold ⊢
        omega
      obtain ⟨moving', environ, hmove, hmoved⟩ :=
        ih (fun t ht => hholds t (List.mem_cons_of_mem _ ht)) hrest
          (fun t ht => hclear t (List.mem_cons_of_mem _ ht)) hroom₁ (by omega)
      obtain ⟨moved, hsub, hp⟩ := hmoved.copied
      refine ⟨moving', s.start :: environ, ?_, hmoved.extended.skip, ⟨moved, hsub.cons s, hp⟩,
        hmoved.outside, .cons ⟨?_, Or.inl ⟨rfl, ?_⟩⟩ hmoved.entries⟩
      · rw [moveEnviron, if_neg heq, hmove]
        rfl
      · have hmore := total_le_of_sublist hsub
        apply CString.In.congr (s := s.moveTo s.start) hin
        intro address hge hlt
        apply hmoved.outside
        rw [Clear] at hclears
        change s.start ≤ address at hge
        change address < s.stop at hlt
        omega
      · exact hmoved.extended.clear s (hclear s List.mem_cons_self) hs

/-! ## The call -/

/-- A range of the memory of the strings has no byte of memory that is allocated. -/
theorem clear_of_covered {first block size last : ℕ} (hfirst : first ≤ last)
    (hfresh : ∀ s ∈ strings, Clear block (block + size) s)
    (hcovered : ∀ address, first ≤ address → address ≤ last →
      ∃ s ∈ strings, s.start ≤ address ∧ address < s.stop)
    (hge : block ≤ s.start) (hle : s.stop ≤ block + size) : Clear first (last + 1) s := by
  have hlt := s.start_lt_stop
  by_contra hnot
  rw [Clear] at hnot
  obtain ⟨t, ht, hstart, hstop⟩ :=
    hcovered (max first s.start) (le_max_left _ _) (max_le hfirst (by omega))
  have hblock := hfresh t ht
  rw [Clear] at hblock
  omega

/-- The loop over `night_os_argv` goes past `argv[0]`. -/
theorem chaseArgv_argv (layout : Layout) :
    ∃ last, chaseArgv layout.memory layout.first.start (layout.argv.map CString.start) = some last ∧
      layout.first.start < last ∧
      Extended layout.argv layout.first.start layout.first.start last := by
  have hfirst : layout.first ∈ layout.first :: layout.arguments ++ layout.environ :=
    List.mem_append_left _ List.mem_cons_self
  have harguments : ∀ s ∈ layout.arguments, s ∈ layout.first :: layout.arguments ++ layout.environ :=
    fun s hs => List.mem_append_left _ (List.mem_cons_of_mem _ hs)
  obtain ⟨last, hchase, hextended⟩ := chaseArgv_extended layout.first.start
    (fun s hs => layout.holds s (harguments s hs)) (fun s hs => layout.below s (harguments s hs))
    layout.first.stop
  refine ⟨last, ?_, layout.first.start_lt_stop.trans_le hextended.le, hextended.cons⟩
  have hlen := size_lt_of_stop_le (layout.below _ hfirst)
  rw [Layout.argv, List.map_cons, chaseArgv, if_pos rfl, (layout.holds _ hfirst).strlen hlen]
  exact hchase

theorem total_environ_lt (layout : Layout) : total layout.environ < addressSpace := by
  have hall := total_le layout.apart layout.below
  rw [total_append, total_cons, CString.size] at hall
  omega

theorem environSize_layout (layout : Layout) :
    environSize layout.process.memory 0 layout.process.environ = some (total layout.environ) := by
  have hfits := total_environ_lt layout
  have hsum := @environSize_eq layout.memory layout.environ 0
    (fun s hs => layout.holds s (List.mem_append_right _ hs)) (by omega)
  rwa [Nat.zero_add] at hsum

theorem nightInitSetproctitle_prepared (malloc : ℕ → Option ℕ) (layout : Layout)
    (hfresh : Fresh malloc layout) :
    (malloc (total layout.environ) = none →
      nightInitSetproctitle malloc layout.process = some (.error, layout.process)) ∧
    ∀ block, malloc (total layout.environ) = some block →
      ∃ after, nightInitSetproctitle malloc layout.process = some (.ok, after) ∧
        Prepared layout block (total layout.environ) after := by
  constructor
  · intro hnone
    rw [nightInitSetproctitle, environSize_layout, Option.bind_eq_bind, Option.bind_some, hnone]
  · intro block hblock
    have hall := hfresh _ _ hblock
    have henviron : ∀ s ∈ layout.environ, s ∈ layout.argv ++ layout.environ :=
      fun s hs => List.mem_append_right _ hs
    obtain ⟨-, hapart, hacross⟩ := List.pairwise_append.mp layout.apart
    obtain ⟨last, hchase, hlast, hargv⟩ := chaseArgv_argv layout
    have hclear : ∀ s ∈ layout.environ, Clear layout.first.start last s := by
      intro s hs
      have hs' : ∀ t ∈ layout.argv, s.Apart t := fun t ht => (hacross t ht s hs).symm
      apply hargv.clear s _ hs'
      have hfirst := hs' layout.first List.mem_cons_self
      have hlt := layout.first.start_lt_stop
      rw [CString.Apart] at hfirst
      rw [Clear]
      omega
    obtain ⟨moving, environ, hmove, hmoved⟩ :=
      @moveEnviron_moved layout.environ _ ⟨layout.memory, block, last⟩
        (fun s hs => layout.holds s (henviron s hs)) hapart hclear
        (fun s hs => hall s (henviron s hs)) (total_environ_lt layout)
    have hreach : last ≤ moving.last := hmoved.extended.le
    have hcovered : ∀ address, layout.first.start ≤ address → address ≤ moving.last - 1 →
        ∃ s ∈ layout.argv ++ layout.environ, s.start ≤ address ∧ address < s.stop := by
      intro address hge hle
      by_cases hin : address < last
      · obtain ⟨s, hs, hin⟩ := hargv.covered address hge hin
        exact ⟨s, List.mem_append_left _ hs, hin⟩
      · obtain ⟨s, hs, hin⟩ := hmoved.extended.covered address (Nat.le_of_not_lt hin) (by omega)
        exact ⟨s, henviron s hs, hin⟩
    obtain ⟨moved, hsub, hp⟩ := hmoved.copied
    have hp' : moving.p = block + total moved := hp
    have hroom := total_le_of_sublist hsub
    refine ⟨{ layout.process with
      memory := moving.memory, environ := environ, nightOsArgvLast := moving.last - 1 }, ?_, ?_⟩
    · rw [nightInitSetproctitle, environSize_layout, Option.bind_eq_bind, Option.bind_some, hblock]
      change (chaseArgv layout.memory layout.first.start (layout.argv.map CString.start) >>= _) = _
      rw [hchase, Option.bind_eq_bind, Option.bind_some]
      change (moveEnviron ⟨layout.memory, block, last⟩ (layout.environ.map CString.start) >>= _) = _
      rw [hmove]
      rfl
    · refine ⟨⟨moved, hsub, hroom, ?_⟩, rfl, ?_, ?_, hcovered⟩
      · intro address hout
        exact hmoved.outside address (by rw [hp']; exact hout)
      · apply hmoved.entries.imp
        rintro s entry ⟨htext, ⟨rfl, hclear⟩ | ⟨hge, hle⟩⟩
        · refine ⟨htext, Or.inl rfl, ?_⟩
          change s.stop ≤ _ ∨ _
          rw [Clear] at hclear
          change _ ∨ moving.last - 1 + 1 ≤ s.start
          omega
        · change block ≤ entry at hge
          refine ⟨htext, Or.inr ⟨hge, by omega⟩, ?_⟩
          apply clear_of_covered (show layout.first.start ≤ moving.last - 1 by omega) hall hcovered
            hge
          change entry + s.size ≤ block + total layout.environ
          omega
      · change layout.first.start ≤ moving.last - 1
        omega

/-- One argument, the environment string after it, and before that one in `environ` the string
that lies behind both. -/
def threeLetters : Layout where
  memory := store (fun _ => 0) 100 [0x61, 0, 0x62, 0, 0x63, 0]
  first := ⟨100, [0x61], by simp⟩
  arguments := []
  environ := [⟨104, [0x63], by simp⟩, ⟨102, [0x62], by simp⟩]
  holds := by
    intro s hs
    rcases List.mem_cons.mp hs with rfl | hs
    · rfl
    rcases List.mem_cons.mp hs with rfl | hs
    · rfl
    rw [List.mem_singleton.mp hs]
    rfl
  apart := by
    simp [CString.Apart, CString.stop, CString.size]
  below := by
    simp [CString.stop, CString.size, addressSpace]

theorem nightInitSetproctitle_prepared_three :
    ∃ after, nightInitSetproctitle (fun _ => some 1000) threeLetters.process = some (.ok, after) ∧
      Prepared threeLetters 1000 4 after := by
  have hfresh : Fresh (fun _ => some 1000) threeLetters := by
    intro size block hblock s hs
    obtain rfl := Option.some.inj hblock
    left
    simp only [Layout.argv, threeLetters, List.mem_append, List.mem_cons, List.not_mem_nil,
      or_false] at hs
    rcases hs with rfl | rfl | rfl <;> simp [CString.stop, CString.size]
  exact (nightInitSetproctitle_prepared _ threeLetters hfresh).2 1000 rfl

end Night.Setproctitle
