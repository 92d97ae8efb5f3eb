import Beardrive.Frontend.ConflictName
import Mathlib.Data.List.Sort

/-!
# The tree in the sidebar

The sidebar shows a project's tree as rows, level by level. Three things keep a child from having a
row of its own: a conflict copy is folded into its original, which carries their number; what is
housekeeping by its name goes into one group at the end of its level, closed unless it was opened;
and of the rest a nested folder shows a few that were changed last, with a row that tells how many
more there are. What lies on the way to the selected path is always shown.

Which copies there are is counted over the whole tree beforehand, with the newest change and the
number of fresh files of every folder.

## The shape of a level

Every child is laid out as the rows it would have, by how deep it stands; the level then selects and
orders the children and puts their rows together. Children are told apart by where they stand among
their siblings, not by what they are.

## Main definitions

* `Node`, `treeStats` — the tree, and what is counted over it
* `View` — what is expanded, shown in full and selected
* `layLevel` — which children of a level are shown
* `buildRows` — the rows
-/

namespace Beardrive.Sidebar

open Browser

/-- `Node`. The time is in milliseconds, nought if there is none. -/
inductive Node where
  | mk (name path : List ℕ) (dir : Bool) (time : ℤ) (children : List Node)

namespace Node

/-- The name of a node. -/
def name : Node → List ℕ
  | mk name _ _ _ _ => name

/-- Its path. -/
def path : Node → List ℕ
  | mk _ path _ _ _ => path

/-- Whether it is a folder. -/
def dir : Node → Bool
  | mk _ _ dir _ _ => dir

/-- When it was changed. -/
def time : Node → ℤ
  | mk _ _ _ time _ => time

/-- What is in it. -/
def children : Node → List Node
  | mk _ _ _ _ children => children

end Node

/-- `isSystemName`: a name that begins with a full stop, or is `_lint.py`. -/
def isSystemName (name : List ℕ) : Bool :=
  name.head? == some 0x2E || name == (ascii "_lint.py").map UInt8.toNat

/-! ### What is counted -/

/-- `TreeStats`, as it is filled: every file in order, and the entries of the two maps. -/
structure Stats where
  files : List (List ℕ) := []
  fresh : List (List ℕ × ℕ) := []
  latest : List (List ℕ × ℤ) := []

/-- One filled behind another. -/
def Stats.append (s t : Stats) : Stats :=
  ⟨s.files ++ t.files, s.fresh ++ t.fresh, s.latest ++ t.latest⟩

/-- `Map.get`: the last value that was set. -/
def lookupLast {α : Type*} (entries : List (List ℕ × α)) (key : List ℕ) : Option α :=
  (entries.reverse.find? fun e => e.1 == key).map Prod.snd

/-- What `treeStats` counts below a node: its fresh files and its newest change. -/
structure Walked where
  fresh : ℕ := 0
  latest : ℤ := 0
  stats : Stats := {}

mutual

/-- `walk`. -/
def walk (since : ℤ) : Node → Walked
  | .mk _ path _ _ children =>
    let w := walkChildren since children {}
    if path = [] then w
    else { w with stats := w.stats.append ⟨[], [(path, w.fresh)], [(path, w.latest)]⟩ }

/-- The loop of `walk`. -/
def walkChildren (since : ℤ) : List Node → Walked → Walked
  | [], acc => acc
  | c :: cs, acc =>
    if c.dir then
      let w := walk since c
      walkChildren since cs
        ⟨acc.fresh + w.fresh, max acc.latest w.latest, acc.stats.append w.stats⟩
    else
      walkChildren since cs
        ⟨if 0 < since ∧ since < c.time then acc.fresh + 1 else acc.fresh, max acc.latest c.time,
          acc.stats.append ⟨[c.path], [], [(c.path, c.time)]⟩⟩

end

/-- `treeStats`. -/
def treeStats (root : Node) (since : ℤ) : Stats := (walk since root).stats

/-- The path a copy is one of. -/
def originalOf (path : List ℕ) : Option (List ℕ) := (parseConflict path).map Conflict.original

/-- The copies of a path. -/
def Stats.copiesOf (S : Stats) (path : List ℕ) : List (List ℕ) :=
  S.files.filter fun p => originalOf p == some path

/-- `stats.conflicts`: how many copies there are of a file. Of anything else none are counted. -/
def Stats.conflicts (S : Stats) (path : List ℕ) : ℕ :=
  if path ∈ S.files then (S.copiesOf path).length else 0

/-- `isFoldedCopy`. A path is in the map when a copy of it was counted. -/
def isFoldedCopy (S : Stats) (path : List ℕ) : Bool :=
  match originalOf path with
  | some original => S.conflicts original ≠ 0
  | none => false

/-! ### The rows -/

/-- What the reader has opened and selected. -/
structure View where
  expanded : List ℕ → Bool
  showAll : List ℕ → Bool := fun _ => false
  keep : List ℕ := []
  cap : ℕ := 5
  recent : Bool := false

/-- `onKeepPath`. -/
def View.onKeepPath (V : View) (path : List ℕ) : Bool :=
  V.keep == path || (path ++ [0x2F]).isPrefixOf V.keep

/-- `systemKey`. -/
def systemKey (parent : List ℕ) : List ℕ := 0 :: (ascii "sys:").map UInt8.toNat ++ parent

/-- `TreeRow`. -/
inductive TreeRow where
  | node (node : Node) (depth conflicts fresh : ℕ)
  | system (parent : List ℕ) (depth count : ℕ) (isOpen : Bool)
  | more (parent : List ℕ) (depth hidden : ℕ)

/-- A child, where it stands among its siblings, and the rows it has at a depth. -/
structure Kid where
  id : ℕ
  node : Node
  rows : ℕ → List TreeRow

/-- `emit`. -/
def emit (kids : List Kid) (depth : ℕ) : List TreeRow := kids.flatMap fun k => k.rows depth

/-- A level, laid out: what is shown of it, how many are not, and the system group. -/
structure Laid where
  plain : List Kid
  hidden : Option ℕ
  system : List Kid
  isOpen : Bool

section

variable (S : Stats) (V : View)

/-- The children, newest change first. -/
def byLatest (kids : List Kid) : List Kid :=
  kids.insertionSort fun a b =>
    (lookupLast S.latest b.node.path).getD 0 ≤ (lookupLast S.latest a.node.path).getD 0

/-- The children of a level that are neither folded nor housekeeping. -/
def plainKids (kids : List Kid) : List Kid :=
  kids.filter fun k => !isFoldedCopy S k.node.path && !isSystemName k.node.name

/-- The children that are housekeeping. -/
def systemKids (kids : List Kid) : List Kid :=
  kids.filter fun k => !isFoldedCopy S k.node.path && isSystemName k.node.name

/-- What `level` selects. -/
def layLevel (parent : List ℕ) (kids : List Kid) (depth : ℕ) : Laid :=
  let plain := if V.recent then byLatest S (plainKids S kids) else plainKids S kids
  let system := systemKids S kids
  let isOpen := V.expanded (systemKey parent) || system.any fun k => V.onKeepPath k.node.path
  if 0 < depth ∧ V.cap < plain.length ∧ V.showAll parent = false then
    let byRecent := byLatest S plain
    let shown := byRecent.take V.cap
    let held := (byRecent.drop V.cap).filter fun k => V.onKeepPath k.node.path
    let pick := (shown ++ held).map Kid.id
    ⟨plain.filter fun k => pick.contains k.id, some (plain.length - shown.length - held.length),
      system, isOpen⟩
  else ⟨plain, none, system, isOpen⟩

/-- `level`. -/
def level (parent : List ℕ) (kids : List Kid) (depth : ℕ) : List TreeRow :=
  let L := layLevel S V parent kids depth
  emit L.plain depth ++ (L.hidden.map (TreeRow.more parent depth)).toList ++
    if L.system = [] then []
    else .system parent depth L.system.length L.isOpen ::
      if L.isOpen then emit L.system (depth + 1) else []

mutual

/-- The rows of a node, at a depth. -/
def block : Node → ℕ → List TreeRow
  | .mk name path dir time children, depth =>
    .node (.mk name path dir time children) depth (if dir then 0 else S.conflicts path)
        (if dir then (lookupLast S.fresh path).getD 0 else 0) ::
      if dir && V.expanded path then level S V path (kidsOf children 0) (depth + 1) else []

/-- The children of a level, from a position on. -/
def kidsOf : List Node → ℕ → List Kid
  | [], _ => []
  | c :: cs, i => ⟨i, c, block c⟩ :: kidsOf cs (i + 1)

end

/-- `buildRows`. -/
def buildRows (root : Node) : List TreeRow :=
  level S V root.path (kidsOf S V root.children 0) 0

end

end Beardrive.Sidebar
