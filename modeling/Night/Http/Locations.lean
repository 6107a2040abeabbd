import Mathlib.Data.List.Infix
import Night.Core.FileName
import Night.Core.Queue

/-!
# Locations

The locations of a server are sorted by name, the ones with equal names are joined, the
ones that extend a prefix location move to a queue of its own, and every queue becomes a
binary tree.  A request walks down this tree.
-/

namespace Night.Locations

open Night.Bytes Night.FileName Night.Queue

/-! ## The configuration -/

/-- The fields of `night_http_core_loc_conf_t` that a location is found by. -/
structure CoreLocConf where
  name : List Byte
  exactMatch : Bool
  deriving DecidableEq, Repr

/-- `night_http_location_queue_t`; `list` are the locations below an inclusive one. -/
structure LocationQueue where
  name : List Byte
  exact : Option CoreLocConf
  inclusive : Option CoreLocConf
  list : List LocationQueue

/-- The element that `night_http_add_location` makes for a location. -/
def LocationQueue.ofLoc (lc : CoreLocConf) : LocationQueue where
  name := lc.name
  exact := if lc.exactMatch then some lc else none
  inclusive := if lc.exactMatch then none else some lc
  list := []

def nightHttpAddLocation (locations : List LocationQueue) (lc : CoreLocConf) :
    List LocationQueue :=
  locations ++ [LocationQueue.ofLoc lc]

/-! ## Sorting and joining -/

/-- `exact_match` of an element's location is set if and only if `exact` is. -/
def nightHttpCmpLocations (one two : LocationQueue) : ℤ :=
  let rc := nightFilenameCmp one.name two.name (min one.name.length two.name.length + 1)
  if rc = 0 ∧ one.exact.isNone ∧ two.exact.isSome then 1 else rc

/-- `night_http_init_locations`: a location has no locations of its own. -/
def nightHttpInitLocations (locations : List LocationQueue) : List LocationQueue :=
  nightQueueSort nightHttpCmpLocations locations

/-- The loop of `night_http_join_exact_locations` at the element `lq`; a duplicate
location is an error. -/
def joinLoop : LocationQueue → List LocationQueue → Option (List LocationQueue)
  | lq, [] => some [lq]
  | lq, lx :: queue =>
      if lq.name.length = lx.name.length ∧
          nightFilenameCmp lq.name lx.name lx.name.length = 0 then
        if lq.exact.isSome ∧ lx.exact.isSome ∨ lq.inclusive.isSome ∧ lx.inclusive.isSome then
          none
        else joinLoop { lq with inclusive := lx.inclusive } queue
      else (joinLoop lx queue).map (lq :: ·)

def nightHttpJoinExactLocations : List LocationQueue → Option (List LocationQueue)
  | [] => some []
  | lq :: queue => joinLoop lq queue

/-! ## Nesting -/

/-- The condition under which the loop over `x` goes on. -/
def extendsName (lq lx : LocationQueue) : Bool :=
  lq.name.length ≤ lx.name.length ∧ nightFilenameCmp lq.name lx.name lq.name.length = 0

/-- `night_http_create_locations_list` from one element of a queue on; the recursion is at
most `fuel` deep. -/
def nightHttpCreateLocationsList : ℕ → List LocationQueue → Option (List LocationQueue)
  | 0, _ => none
  | _ + 1, [] => some []
  | _ + 1, [lq] => some [lq]
  | fuel + 1, lq :: lx :: queue =>
      if lq.inclusive.isNone then
        (nightHttpCreateLocationsList fuel (lx :: queue)).map (lq :: ·)
      else
        let inside := (lx :: queue).takeWhile (extendsName lq)
        let outside := (lx :: queue).dropWhile (extendsName lq)
        if inside.isEmpty then
          (nightHttpCreateLocationsList fuel outside).map (lq :: ·)
        else if outside.isEmpty then do
          let list ← nightHttpCreateLocationsList fuel (lq.list ++ inside)
          some [{ lq with list := list }]
        else do
          let list ← nightHttpCreateLocationsList fuel (lq.list ++ inside)
          let rest ← nightHttpCreateLocationsList fuel outside
          some ({ lq with list := list } :: rest)

/-! ## The tree -/

/-- `night_http_location_tree_node_t`, or `NULL`. -/
inductive LocationTree where
  | null
  | node (left right tree : LocationTree) (exact inclusive : Option CoreLocConf)
      (name : List Byte)
  deriving DecidableEq, Repr

/-- `night_http_create_locations_tree`; `pre` bytes of the names are left out.  The queue
before the middle is empty only if the middle is the only element. -/
def nightHttpCreateLocationsTree : ℕ → List LocationQueue → ℕ → Option LocationTree
  | 0, _, _ => none
  | fuel + 1, locations, pre =>
      match locations.drop (nightQueueMiddle locations) with
      | [] => none
      | lq :: tail => do
          let front := locations.take (nightQueueMiddle locations)
          let len := lq.name.length - pre
          let left ←
            (if front.isEmpty then some .null else nightHttpCreateLocationsTree fuel front pre)
          let right ←
            (if front.isEmpty ∨ tail.isEmpty then some .null
              else nightHttpCreateLocationsTree fuel tail pre)
          let tree ←
            (if lq.list.isEmpty then some .null
              else nightHttpCreateLocationsTree fuel lq.list (pre + len))
          some (.node left right tree lq.exact lq.inclusive (lq.name.drop pre))

/-- `night_http_init_static_location_trees`. -/
def nightHttpInitStaticLocationTrees (locations : List LocationQueue) :
    Option LocationTree :=
  if locations.isEmpty then some .null
  else do
    let joined ← nightHttpJoinExactLocations locations
    let nested ← nightHttpCreateLocationsList joined.length joined
    nightHttpCreateLocationsTree joined.length nested 0

/-! ## Finding a location -/

inductive Code where
  | ok
  | again
  | declined
  deriving DecidableEq, Repr

/-- What `r->loc_conf` points to. -/
inductive LocConf where
  | server
  | location (lc : CoreLocConf)
  deriving DecidableEq, Repr

/-- `night_http_core_find_static_location`; nothing is returned where it would read the
`loc_conf` of `NULL`. -/
def nightHttpCoreFindStaticLocation :
    LocationTree → List Byte → Code → LocConf → Option (Code × LocConf)
  | .null, _, rv, locConf => some (rv, locConf)
  | .node left right tree exact inclusive name, uri, rv, locConf =>
      let n := min uri.length name.length
      let rc := nightFilenameCmp uri name n
      if rc ≠ 0 then
        if rc < 0 then nightHttpCoreFindStaticLocation left uri rv locConf
        else nightHttpCoreFindStaticLocation right uri rv locConf
      else if name.length < uri.length then
        match inclusive with
        | some lc => nightHttpCoreFindStaticLocation tree (uri.drop n) .again (.location lc)
        | none => nightHttpCoreFindStaticLocation right uri rv locConf
      else if uri.length = name.length then
        match exact with
        | some lc => some (.ok, .location lc)
        | none => inclusive.map fun lc => (.again, .location lc)
      else nightHttpCoreFindStaticLocation left uri rv locConf

/-- `night_http_core_find_location`, at most `depth` calls deep; `trees` are the trees of
the configurations. -/
def nightHttpCoreFindLocation (trees : LocConf → LocationTree) (uri : List Byte) :
    ℕ → LocConf → Option (Code × LocConf)
  | 0, _ => none
  | depth + 1, locConf => do
      let (rc, locConf) ←
        nightHttpCoreFindStaticLocation (trees locConf) uri .declined locConf
      if rc = .again then nightHttpCoreFindLocation trees uri depth locConf
      else some (rc, locConf)

/-- The `location` command is allowed in a server only: a location has no tree. -/
def staticLocationsTree (serverTree : LocationTree) : LocConf → LocationTree
  | .server => serverTree
  | .location _ => .null

/-- The `loc_conf` of a request with this URI in a server with these locations. -/
def findLocation (locations : List CoreLocConf) (depth : ℕ) (uri : List Byte) :
    Option LocConf := do
  let queue := nightHttpInitLocations (locations.foldl nightHttpAddLocation [])
  let tree ← nightHttpInitStaticLocationTrees queue
  let (_, locConf) ← nightHttpCoreFindLocation (staticLocationsTree tree) uri depth .server
  some locConf

/-! ## What should be found -/

/-- An exact location matches its name, another one every URI that begins with it. -/
def Matches (uri : List Byte) (lc : CoreLocConf) : Prop :=
  if lc.exactMatch then lower lc.name = lower uri else lower lc.name <+: lower uri

/-- An exact location goes before the others, and these go by the length of the name. -/
def Precedes (lc other : CoreLocConf) : Prop :=
  lc.exactMatch = true ∨ other.exactMatch = false ∧ other.name.length ≤ lc.name.length

/-- The configuration that a URI belongs to. -/
def Chosen (locations : List CoreLocConf) (uri : List Byte) : LocConf → Prop
  | .server => ∀ lc ∈ locations, ¬ Matches uri lc
  | .location lc => lc ∈ locations ∧ Matches uri lc ∧
      ∀ other ∈ locations, Matches uri other → Precedes lc other

/-- No name has a `NUL`, and two locations of the same kind have different names. -/
structure ValidLocations (locations : List CoreLocConf) : Prop where
  names : ∀ lc ∈ locations, Proper lc.name
  differ : locations.Pairwise fun lc other =>
    lc.exactMatch = other.exactMatch → lower lc.name ≠ lower other.name

/-- No name goes on behind another one with a byte from `0x80` on. -/
def NoHighExtension (locations : List CoreLocConf) : Prop :=
  ∀ short ∈ locations, ∀ long ∈ locations, lower short.name <+: lower long.name →
    ∀ ch ∈ long.name[short.name.length]?, ch.toNat < 128

end Night.Locations
