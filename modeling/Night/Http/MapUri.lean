import Night.Core.Bytes
import Night.Lib.Memory

/-!
# `night_http_map_uri_to_path`

The path of a file: the root, the URI and a null byte, in a block of `path->len` bytes.
-/

namespace Night.MapUri

open Night.Bytes
open Night.Memory

/-- The fields of `night_http_core_loc_conf_t` that are read; there is no `alias`, and no
directive sets `root_lengths`. -/
structure LocConf where
  root : List Byte
  rootLengths : Bool
  deriving DecidableEq, Repr

/-- A path; `last` is where the returned pointer points to in the block. -/
structure Path where
  data : List Byte
  rootLength : ℕ
  last : ℕ
  deriving DecidableEq, Repr

/-- `NULL` or a path is returned, or there is a write that is not in the block. -/
inductive Mapped where
  | null
  | stray
  | path (path : Path)
  deriving DecidableEq, Repr

/-- The copies into the block: `root`, the URI and the null byte. -/
def copyPath (root uri block : List Byte) : Option (List Byte) := do
  let block ← write block 0 root
  let block ← write block root.length uri
  write block (root.length + uri.length) [0]

/-- `served` says whether the pool has memory, which comes zeroed. -/
def nightHttpMapUriToPath (clcf : LocConf) (uri : List Byte) (reserved : ℕ) (served : Bool) :
    Mapped :=
  if clcf.rootLengths then .stray
  else if !served then .null
  else
    match copyPath clcf.root uri
        (List.replicate (clcf.root.length + reserved + uri.length) 0) with
    | none => .stray
    | some block => .path ⟨block, clcf.root.length, clcf.root.length + uri.length⟩

/-! ## The path -/

/-- The writes stay in the block of the length that was computed, the block holds the path,
the pointer that is returned is at its null byte, and from there a caller may write as many
bytes as it has reserved. -/
def Maps (clcf : LocConf) (uri : List Byte) (reserved : ℕ) (served : Bool) : Mapped → Prop
  | .null => served = false
  | .stray => False
  | .path path =>
      path.data.length = clcf.root.length + reserved + uri.length ∧
        path.rootLength = clcf.root.length ∧
        path.data.take (path.last + 1) = clcf.root ++ uri ++ [0] ∧
        path.data[path.last]? = some 0 ∧
        ∀ bytes : List Byte, bytes.length ≤ reserved →
          ∃ block, write path.data path.last bytes = some block

theorem write_behind (front bytes : List Byte) {room : ℕ} (hroom : bytes.length ≤ room) :
    write (front ++ List.replicate room 0) front.length bytes =
      some (front ++ bytes ++ List.replicate (room - bytes.length) 0) := by
  have hlength : bytes.length ≤ (List.replicate room (0 : Byte)).length := by
    rwa [List.length_replicate]
  rw [write_append front _ hlength, List.drop_replicate]

/-- The root and the URI always fit; then there is the room that was reserved. -/
theorem copyPath_eq (root uri : List Byte) (reserved : ℕ) :
    copyPath root uri (List.replicate (root.length + reserved + uri.length) 0) =
      write (root ++ uri ++ List.replicate reserved 0) (root.length + uri.length) [0] := by
  have hall : root.length + reserved + uri.length - root.length = reserved + uri.length := by omega
  have hrest : reserved + uri.length - uri.length = reserved := Nat.add_sub_cancel _ _
  have hroot := write_behind [] root
    (show root.length ≤ root.length + reserved + uri.length by omega)
  have huri := write_behind root uri (Nat.le_add_left uri.length reserved)
  rw [List.nil_append, List.nil_append, hall, List.length_nil] at hroot
  rw [hrest] at huri
  simp only [copyPath, hroot, huri, Option.bind_eq_bind, Option.bind_some]

/-- The path when a byte is reserved; what is left of the block is zero. -/
theorem nightHttpMapUriToPath_eq (clcf : LocConf) (uri : List Byte) {reserved : ℕ}
    (hreserved : 0 < reserved) (hroot : clcf.rootLengths = false) :
    nightHttpMapUriToPath clcf uri reserved true =
      .path ⟨clcf.root ++ uri ++ [0] ++ List.replicate (reserved - 1) 0, clcf.root.length,
        clcf.root.length + uri.length⟩ := by
  have hnull := write_behind (clcf.root ++ uri) [0] (Nat.succ_le_of_lt hreserved)
  rw [List.length_append] at hnull
  rw [nightHttpMapUriToPath, hroot, copyPath_eq, hnull]
  rfl

theorem maps_of_reserved (clcf : LocConf) (uri : List Byte) {reserved : ℕ}
    (hreserved : 0 < reserved) (hroot : clcf.rootLengths = false) :
    Maps clcf uri reserved true (nightHttpMapUriToPath clcf uri reserved true) := by
  have hmapped := nightHttpMapUriToPath_eq clcf uri hreserved hroot
  have hlength : (clcf.root ++ uri ++ [0]).length = clcf.root.length + uri.length + 1 := by
    simp only [List.length_append, List.length_singleton]
  rw [hmapped]
  refine ⟨?_, rfl, ?_, ?_, ?_⟩
  · rw [List.length_append, hlength, List.length_replicate]
    omega
  · exact List.take_left' hlength
  · have hlast : clcf.root.length + uri.length < (clcf.root ++ uri ++ [(0 : Byte)]).length := by
      rw [hlength]
      exact Nat.lt_succ_self _
    change (clcf.root ++ uri ++ [0] ++ List.replicate (reserved - 1) 0)[
      clcf.root.length + uri.length]? = some 0
    rw [List.getElem?_append_left hlast, ← List.length_append]
    exact List.getElem?_concat_length
  · intro bytes hbytes
    apply write_isSome
    simp only [List.length_append, List.length_replicate, List.length_singleton]
    omega

/-- The null byte is in the block just where the caller has reserved a byte. -/
theorem nightHttpMapUriToPath_maps_iff (clcf : LocConf) (uri : List Byte) (reserved : ℕ)
    (served : Bool) :
    Maps clcf uri reserved served (nightHttpMapUriToPath clcf uri reserved served) ↔
      clcf.rootLengths = false ∧ (served = false ∨ 0 < reserved) := by
  cases hroot : clcf.rootLengths with
  | true =>
      refine iff_of_false ?_ fun hboth => Bool.false_ne_true hboth.1.symm
      rw [nightHttpMapUriToPath, hroot]
      exact id
  | false =>
      cases served with
      | false =>
          refine iff_of_true ?_ ⟨rfl, Or.inl rfl⟩
          rw [nightHttpMapUriToPath, hroot]
          rfl
      | true =>
          rcases Nat.eq_zero_or_pos reserved with rfl | hreserved
          · refine iff_of_false ?_ ?_
            · -- the null byte is one byte behind the block
              have hstray : nightHttpMapUriToPath clcf uri 0 true = .stray := by
                have hout : ¬ clcf.root.length + uri.length + [(0 : Byte)].length ≤
                    (clcf.root ++ uri ++ List.replicate 0 (0 : Byte)).length := by
                  simp only [List.length_append, List.length_replicate, List.length_singleton]
                  omega
                rw [nightHttpMapUriToPath, hroot, copyPath_eq, write, if_neg hout]
                rfl
              rw [hstray]
              exact id
            · rintro ⟨-, hserved | hpos⟩
              · cases hserved
              · exact absurd hpos (Nat.lt_irrefl 0)
          · exact iff_of_true (maps_of_reserved clcf uri hreserved hroot)
              ⟨rfl, Or.inr hreserved⟩

/-- The call of the static handler, which reserves nothing, for `/a` under `/w`. -/
theorem not_maps_static :
    ¬ ∀ (clcf : LocConf) (uri : List Byte) (reserved : ℕ) (served : Bool),
      clcf.rootLengths = false →
      Maps clcf uri reserved served (nightHttpMapUriToPath clcf uri reserved served) := by
  intro hall
  have hmaps := hall ⟨[ascii '/', ascii 'w'], false⟩ [ascii '/', ascii 'a'] 0 true rfl
  exact hmaps

end Night.MapUri
