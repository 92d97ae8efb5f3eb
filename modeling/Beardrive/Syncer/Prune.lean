import Beardrive.Lib.JsonString
import Beardrive.Syncer.RuleMeaning
import Beardrive.Syncer.ScanDeletes
import Beardrive.Syncer.WalkRoots

/-!
# Pruning a directory

The walk asks the rules about `d/` and does not enter `d` when they exclude that. Whether they then
exclude everything below `d` is a matter of the end of the rule. A rule that ends in a wildcard or
in a character other than a slash has matched `d/` with something that goes on behind the slash. A
rule whose last character is a slash, which a backslash has kept from being read as the mark of a
directory, has matched `d/` with that slash, and matches nothing below `d`.

The dot of an expression does not match a line feed, so a path with a line feed in it may escape a
rule with a wildcard. No path that syncs has one.

## Main definitions

* `Pattern.endsOpen` — whether a rule ends in something other than a slash
* `Filter.prunesOpenly` — whether some such rule prunes a directory

## Main results

* `skip_of_pruneDir` — such a rule excludes what lies below the directory
* `prune_sound` — so the walk loses nothing by pruning, and no pruned file is taken for deleted
-/

namespace Beardrive

/-- Whether an expression ends in something other than a slash. -/
def Pattern.endsOpen (p : Pattern) : Bool :=
  p.dirOnly || p.elems.getLast?.any (· != .lit slashRune)

/-- Whether a rule that ends in something other than a slash excludes a directory. -/
def Filter.prunesOpenly (f : Filter) (d : GoString) : Bool :=
  f.ignore.any fun p => p.matches (d ++ [slash]) && p.endsOpen

/-! ### Rules -/

theorem slash_ascii : slash < 0x80 := by decide

theorem runes_slash (t : GoString) : runes (slash :: t) = slashRune :: runes t :=
  runes_cons_ascii slash_ascii t

theorem matchTail_append {dirOnly : Bool} {v t : List Rune} (h : matchTail dirOnly v = true)
    (hv : v ≠ []) (ht : 0x0A ∉ t) : matchTail dirOnly (v ++ t) = true := by
  obtain ⟨r, s, rfl⟩ := List.exists_cons_of_ne_nil hv
  rw [matchTail, Bool.and_eq_true, List.all_eq_true] at h
  rw [List.cons_append, matchTail, h.1, Bool.true_and, List.all_append, Bool.and_eq_true,
    List.all_eq_true, List.all_eq_true]
  exact ⟨h.2, fun r hr => notNewline_iff.mpr fun heq => ht (heq ▸ hr)⟩

/-- The tail that is left of a path without a line feed, up to its first slash. -/
theorem matchTail_dropWhile {t : List Rune} (ht : 0x0A ∉ t) :
    matchTail false (t.dropWhile (· != slashRune)) = true := by
  cases hdrop : t.dropWhile (· != slashRune) with
  | nil => rfl
  | cons r s =>
    have hr : r = slashRune := by
      have h := List.head_dropWhile_not (· != slashRune) (by rw [hdrop]; simp)
      simpa [hdrop] using h
    have hs : ∀ x ∈ s, x ∈ t := fun x hx =>
      (List.dropWhile_sublist _).subset (hdrop ▸ List.mem_cons_of_mem _ hx)
    rw [matchTail, hr, beq_self_eq_true, Bool.true_and, List.all_eq_true]
    exact fun x hx => notNewline_iff.mpr fun heq => ht (heq ▸ hs x hx)

/-- An element other than a slash that has matched up to a slash goes on behind it. -/
theorem exists_spells_append {e : Elem} (he : e ≠ .lit slashRune) {a b x t : List Rune}
    (heq : a ++ b = x ++ [slashRune]) (hb : e.Spells b) (ht : 0x0A ∉ t) :
    ∃ c v, b ++ t = c ++ v ∧ e.Spells c ∧ matchTail false v = true := by
  have hlast : b ≠ [] → b.getLast? = some slashRune := by
    intro hne
    rw [← List.getLast?_append_of_ne_nil a hne, heq, List.getLast?_concat]
  cases e with
  | lit c =>
    obtain rfl : b = [c] := hb
    exact absurd (congrArg Elem.lit (Option.some.inj (hlast (by simp)))) he
  | one =>
    obtain ⟨r, rfl, hr⟩ := hb
    exact absurd (Option.some.inj (hlast (by simp))) hr
  | star =>
    obtain rfl : b = [] := by
      by_contra hne
      exact hb (List.mem_of_getLast? (hlast hne))
    refine ⟨t.takeWhile (· != slashRune), t.dropWhile (· != slashRune), ?_, ?_,
      matchTail_dropWhile ht⟩
    · exact (List.takeWhile_append_dropWhile).symm
    · intro hmem
      simpa using List.mem_takeWhile_imp hmem
  | deep =>
    refine ⟨b ++ t, [], (List.append_nil _).symm, fun hmem => ?_, rfl⟩
    exact (List.mem_append.mp hmem).elim hb ht

/-- **An expression that ends in something other than a slash and matches a directory matches
everything below it.** -/
theorem regexMatch_below {p : Pattern} (hopen : p.endsOpen = true) {d t : GoString}
    (h : p.regexMatch (d ++ [slash]) = true) (ht : 0x0A ∉ runes t) :
    p.regexMatch (d ++ slash :: t) = true := by
  obtain ⟨pre, u, v, heq, hpre, hu, hv⟩ := regexMatch_iff.mp h
  rw [runes_append_ascii slash_ascii, runes_slash, runes_nil] at heq
  refine regexMatch_iff.mpr ?_
  rw [runes_append_ascii slash_ascii, runes_slash, List.append_cons, heq]
  by_cases hvne : v = []
  · subst hvne
    have hdir : p.dirOnly = false := by simpa [matchTail] using hv
    rw [Pattern.endsOpen, hdir, Bool.false_or, Option.any_eq_true] at hopen
    obtain ⟨e, hlast, he⟩ := hopen
    obtain ⟨es, hes⟩ := List.getLast?_eq_some_iff.mp hlast
    rw [hes, spells_append] at hu
    obtain ⟨a, b, rfl, ha, hb⟩ := hu
    rw [spells_singleton] at hb
    obtain ⟨c, w, hcw, hc, hw⟩ := exists_spells_append (bne_iff_ne.mp he)
      (show (pre ++ a) ++ b = runes d ++ [slashRune] by rw [heq]; simp) hb ht
    refine ⟨pre, a ++ c, w, ?_, hpre, ?_, hdir ▸ hw⟩
    · rw [List.append_nil, List.append_assoc, List.append_assoc, hcw, List.append_assoc]
    · rw [hes, spells_append]
      exact ⟨a, c, rfl, ha, spells_singleton.mpr hc⟩
  · refine ⟨pre, u, v ++ runes t, ?_, hpre, hu, matchTail_append hv hvne ht⟩
    rw [List.append_assoc, List.append_assoc]

theorem endsOpen_exact {p : Pattern} (hp : p.Fine) (hne : p.exactSeg ≠ [])
    (hopen : p.endsOpen = true) (hdir : p.dirOnly = false) : ¬ [slash] <:+ p.exactSeg := by
  rintro ⟨init, hinit⟩
  rw [Pattern.endsOpen, hdir, Bool.false_or, hp.elems hne, ← hinit,
    runes_append_ascii slash_ascii, runes_slash, List.map_append] at hopen
  simp [runes_nil] at hopen

/-- **A rule that ends in something other than a slash and matches a directory matches everything
below it.** -/
theorem matches_below {p : Pattern} (hp : p.Fine) (hopen : p.endsOpen = true) {d t : GoString}
    (h : p.matches (d ++ [slash]) = true) (ht : 0x0A ∉ runes t) :
    p.matches (d ++ slash :: t) = true := by
  have hbelow : d ++ [slash] <+: d ++ slash :: t := ⟨t, by simp⟩
  have hpre {sub : GoString} (h : hasPrefix (d ++ [slash]) sub = true) :
      hasPrefix (d ++ slash :: t) sub = true :=
    hasPrefix_iff.mpr ((hasPrefix_iff.mp h).trans hbelow)
  have hin {sub : GoString} (h : contains (d ++ [slash]) sub = true) :
      contains (d ++ slash :: t) sub = true :=
    contains_iff.mpr ((contains_iff.mp h).trans hbelow.isInfix)
  rw [Pattern.matches] at h ⊢
  split at h
  case isTrue hne =>
    rw [if_pos hne]
    -- a path that ends in a slash is not what an open rule names, nor does it end in that
    have hslash (hdir : p.dirOnly = false) (hsuf : p.exactSeg <:+ d ++ [slash]) : False := by
      refine endsOpen_exact hp hne hopen hdir ?_
      exact List.suffix_of_suffix_length_le (List.suffix_append _ _) hsuf
        (by rw [List.length_singleton]; exact List.length_pos_iff.mpr hne)
    cases hanch : p.anchored <;> cases hdir : p.dirOnly <;>
      simp only [hanch, hdir, if_true, if_false, Bool.false_eq_true, Bool.or_eq_true, beq_iff_eq,
        hasSuffix_iff] at h ⊢
    · rcases h with ((h | h) | h) | h
      · exact (hslash hdir (h ▸ List.suffix_rfl)).elim
      · exact .inl (.inl (.inr (hpre h)))
      · rw [hp.segSuffix hne hanch] at h
        exact (hslash hdir ((List.suffix_cons _ _).trans h)).elim
      · exact .inr (hin h)
    · exact h.imp hpre hin
    · rcases h with h | h
      · exact (hslash hdir (h ▸ List.suffix_rfl)).elim
      · exact .inr (hpre h)
    · exact hpre h
  case isFalse hexact =>
    rw [if_neg hexact]
    split at h
    case isFalse hlit =>
      rw [if_neg hlit]
      exact regexMatch_below hopen h ht
    case isTrue hlit =>
      rw [if_pos hlit]
      split at h
      case isTrue hslit =>
        rw [if_pos hslit]
        split at h
        · cases h
        case isFalse hfast =>
          rw [if_neg]
          · exact regexMatch_below hopen h ht
          · rw [Bool.and_eq_true, not_and_or, Bool.not_eq_true', Bool.not_eq_true',
              Bool.not_eq_false, Bool.not_eq_false] at hfast ⊢
            exact hfast.imp hpre hin
      case isFalse hslit =>
        rw [if_neg hslit]
        split at h
        · cases h
        case isFalse hfast =>
          rw [if_neg]
          · exact regexMatch_below hopen h ht
          · rw [Bool.not_eq_true', Bool.not_eq_false] at hfast ⊢
            exact hin hfast

/-! ### Filters -/

/-- What `loadFilter` makes of the rules of a folder. -/
structure Filter.Loaded (f : Filter) : Prop where
  negated : f.negated = f.ignore.any (·.negate)
  fine : ∀ p ∈ f.ignore, p.Fine

/-- The filter of a folder on a device that has accepted some rules. -/
def folderFilter (text : Option GoString) (includes : List GoString) (isMount : GoString → Bool)
    (accepted : GoString) : Filter := (loadFilter text includes isMount).acceptRules accepted

theorem loaded_folderFilter (text : Option GoString) (includes : List GoString)
    (isMount : GoString → Bool) (accepted : GoString) :
    (folderFilter text includes isMount accepted).Loaded := by
  refine ⟨rfl, fun p hp => ?_⟩
  cases text with
  | none => cases hp
  | some text => exact fine_of_mem_compileRules hp

/-- Where no rule re-includes anything, a path is excluded when some rule matches it. -/
theorem ignoredBy_iff {pats : List Pattern} (h : ∀ p ∈ pats, p.negate = false) {rel : GoString} :
    ignoredBy pats rel = true ↔ ∃ p ∈ pats, p.matches rel = true := by
  rw [ignoredBy]
  constructor
  · intro hi
    split at hi
    case h_1 p hfind =>
      have hm := List.find?_some hfind
      exact ⟨p, List.mem_reverse.mp (List.mem_of_find?_eq_some hfind), hm⟩
    case h_2 => cases hi
  · rintro ⟨p, hp, hm⟩
    cases hfind : pats.reverse.find? (·.matches rel) with
    | none => exact absurd hm (List.find?_eq_none.mp hfind p (List.mem_reverse.mpr hp))
    | some q =>
      show (!q.negate) = true
      rw [h q (List.mem_reverse.mp (List.mem_of_find?_eq_some hfind)), Bool.not_false]

/-- **A directory that such a rule prunes holds nothing that the filter lets through.** -/
theorem skip_of_pruneDir {f : Filter} (hf : f.Loaded) {d t : GoString}
    (hprune : f.pruneDir d = true) (hopen : f.prunesOpenly d = true) (ht : 0x0A ∉ runes t) :
    f.skip (d ++ slash :: t) = true := by
  rw [Filter.pruneDir] at hprune
  split at hprune
  case isTrue => cases hprune
  case isFalse hsafe =>
    rw [not_or, not_not, Bool.not_eq_true, hf.negated, List.any_eq_false] at hsafe
    obtain ⟨p, hp, hm⟩ := List.any_eq_true.mp hopen
    rw [Bool.and_eq_true] at hm
    have hbelow := matches_below (hf.fine p hp) hm.2 hm.1 ht
    have hignored : f.ignoredFile (d ++ slash :: t) = true :=
      (ignoredBy_iff fun p hp => by simpa using hsafe.1 p hp).mpr ⟨p, hp, hbelow⟩
    have hne : d ++ slash :: t ≠ ignoreFile := by
      intro heq
      have hmem : slash ∈ ignoreFile := heq ▸ List.mem_append_right _ List.mem_cons_self
      revert hmem
      decide
    rw [Filter.skip, if_neg hne, if_pos (by rw [hignored, Bool.or_true])]

/-! ### The walk -/

/-- The filter of a walk that enters every directory the rules allow files in. -/
def Filter.unpruned (f : Filter) : Filter := { f with negated := true }

@[simp] theorem Filter.pruneDir_unpruned (f : Filter) (d : GoString) :
    f.unpruned.pruneDir d = false := if_pos (.inl rfl)

@[simp] theorem skippedFile_unpruned (f : Filter) (rel : GoString) :
    skippedFile f.unpruned rel = skippedFile f rel := rfl

/-- The filter excludes what lies in a directory it prunes. -/
def Filter.PrunesExcluded (f : Filter) : Prop :=
  ∀ d t, f.pruneDir d = true → 0x0A ∉ runes t → f.skip (d ++ slash :: t) = true

theorem lineFeed_notMem_of_safePath {d t : GoString} (h : safePath (d ++ slash :: t) = true) :
    0x0A ∉ runes t := by
  intro hmem
  have hbyte : (0x0A : UInt8) ∈ t := mem_of_mem_runes hmem (by decide)
  have hctrl := (safeRunes_iff.mp (safePath_iff.mp h).2).1 0x0A
    (List.mem_append_right _ (List.mem_cons_of_mem _ hbyte))
  revert hctrl
  decide

/-- No pruned directory is above a file that syncs. -/
theorem Filter.PrunesExcluded.pruneDir_eq {f : Filter} (hf : f.PrunesExcluded)
    {init last : List GoString} (hinit : init ≠ []) (hlast : last ≠ [])
    (h : skippedFile f (joinSlash (init ++ last)) = false) :
    f.pruneDir (joinSlash init) = false := by
  by_contra hprune
  rw [skippedFile, Bool.or_eq_false_iff, Bool.or_eq_false_iff, Bool.not_eq_false',
    joinSlash_append hinit hlast, Filter.skipUp_eq, Bool.or_eq_false_iff] at h
  rw [hf _ _ (Bool.not_eq_false _ ▸ hprune) (lineFeed_notMem_of_safePath h.1.1)] at h
  exact Bool.noConfusion h.2.1

/-- A file that syncs is visited inside a directory, not as one. -/
theorem visit_dir_ne {f : Filter} {names names' : List GoString} {readable : Bool}
    {entries : List (GoString × Node)} {n' : Node} {v : Verdict} (hv : v = .sync ∨ v = .symlink) :
    WalkEvent.visit names' n' v ≠
      .visit names (.dir readable entries) (verdict f names (.dir readable entries)) := by
  intro heq
  obtain ⟨-, -, rfl⟩ := WalkEvent.visit.inj heq
  exact Bool.noConfusion (verdict_syncs_iff.mp hv).1

mutual

theorem sync_mem_walkNode_iff {f : Filter} (hf : f.PrunesExcluded) {names : List GoString}
    (hne : names ≠ []) : ∀ (n : Node) {names' : List GoString} {n' : Node} {v : Verdict},
      v = .sync ∨ v = .symlink → (.visit names' n' v ∈ walkNode f names n ↔
        .visit names' n' v ∈ walkNode f.unpruned names n)
  | .dir readable entries, names', n', v, hv => by
    rw [mem_walkNode_iff, mem_walkNode_iff, or_iff_right (visit_dir_ne hv),
      or_iff_right (visit_dir_ne hv), verdict_dir_eq_descend_iff, verdict_dir_eq_descend_iff,
      Filter.pruneDir_unpruned]
    constructor
    · rintro ⟨⟨hreserved, -, hmount⟩, ⟨sub, hsub, hin⟩ | ⟨sub, -, heq⟩⟩
      · obtain ⟨-, rfl⟩ := Node.dir.inj hsub
        exact ⟨⟨hreserved, rfl, hmount⟩,
          .inl ⟨_, hsub, (sync_mem_walkEntries_iff hf names entries hv).mp hin⟩⟩
      · cases heq
    · rintro ⟨⟨hreserved, -, hmount⟩, ⟨sub, hsub, hin⟩ | ⟨sub, -, heq⟩⟩
      · obtain ⟨-, rfl⟩ := Node.dir.inj hsub
        obtain ⟨name, rest, hnames⟩ := names_of_mem_walkEntries f.unpruned names entries _ hin
        have hverdict := verdict_of_mem_walkEntries f.unpruned names entries hin
        have hsync := (verdict_syncs_iff.mp (hverdict ▸ hv)).2
        rw [skippedFile_unpruned, show names' = names ++ name :: rest from hnames] at hsync
        exact ⟨⟨hreserved, hf.pruneDir_eq hne (by simp) hsync, hmount⟩,
          .inl ⟨_, hsub, (sync_mem_walkEntries_iff hf names entries hv).mpr hin⟩⟩
      · cases heq
  | .file .., _, _, _, _ => Iff.rfl
  | .symlink .., _, _, _, _ => Iff.rfl
  | .other, _, _, _, _ => Iff.rfl

theorem sync_mem_walkEntries_iff {f : Filter} (hf : f.PrunesExcluded) (dir : List GoString) :
    ∀ (entries : List (GoString × Node)) {names' : List GoString} {n' : Node} {v : Verdict},
      v = .sync ∨ v = .symlink → (.visit names' n' v ∈ walkEntries f dir entries ↔
        .visit names' n' v ∈ walkEntries f.unpruned dir entries)
  | [], _, _, _, _ => Iff.rfl
  | (name, n) :: entries, _, _, _, hv => by
    rw [walkEntries, walkEntries, List.mem_append, List.mem_append,
      sync_mem_walkNode_iff hf (by simp) n hv, sync_mem_walkEntries_iff hf dir entries hv]

end

theorem mem_walkRoot_iff {f : Filter} {folder : Folder} {names names' : List GoString} {n' : Node}
    {v : Verdict} : .visit names' n' v ∈ walkRoot f folder names ↔
      ∃ n, folder.lstat names = .found n ∧ targetUnderNestedMount f folder names = false ∧
        .visit names' n' v ∈ walkNode f names n := by
  rw [walkRoot]
  split
  case isTrue h => simp [h]
  case isFalse h =>
    rw [Bool.not_eq_true] at h
    split <;> simp_all

/-- **The walk loses no file that syncs by pruning**, be it of the whole folder or below watched
paths. -/
theorem sync_mem_walkFolder_iff {f : Filter} (hf : f.PrunesExcluded) (folder : Folder)
    (roots : Option (List GoString)) {names : List GoString} {n : Node} {v : Verdict}
    (hv : v = .sync ∨ v = .symlink) : .visit names n v ∈ walkFolder f folder roots ↔
      .visit names n v ∈ walkFolder f.unpruned folder roots := by
  cases roots with
  | none =>
    rw [walkFolder, walkFolder]
    split
    · exact sync_mem_walkEntries_iff hf [] folder.entries hv
    · exact Iff.rfl
  | some roots =>
    rw [walkFolder, walkFolder, List.mem_flatMap, List.mem_flatMap]
    refine exists_congr fun root => and_congr_right fun _ => ?_
    rw [mem_walkRoot_iff, mem_walkRoot_iff]
    refine exists_congr fun n' => and_congr_right fun hfound => ?_
    have hne := segments_ne_nil root
    rw [sync_mem_walkNode_iff hf hne n' hv]
    refine and_congr_left fun hin => ?_
    -- a file that syncs lies below the watched path, so nothing above that is pruned
    obtain ⟨rest, hrest⟩ := names_of_mem_walkNode f.unpruned (segments root) n' _ hin
    have hverdict := verdict_of_mem_walkNode f.unpruned (segments root) n' hin
    have hsync := (verdict_syncs_iff.mp (hverdict ▸ hv)).2
    rw [skippedFile_unpruned, show names = segments root ++ rest from hrest] at hsync
    rw [targetUnderNestedMount_eq_false_iff hfound hne,
      targetUnderNestedMount_eq_false_iff hfound hne]
    refine forall_congr' fun init => forall_congr' fun last => forall_congr' fun heq =>
      forall_congr' fun hinit => forall_congr' fun hlast => forall_congr' fun readable =>
      forall_congr' fun sub => forall_congr' fun _ => ?_
    rw [heq, List.append_assoc] at hsync
    rw [verdict_dir_eq_descend_iff, verdict_dir_eq_descend_iff, Filter.pruneDir_unpruned,
      hf.pruneDir_eq hinit (by simp [hlast]) hsync]
    exact Iff.rfl

/-- **No file in a pruned directory is taken for deleted.** -/
theorem not_pruned_of_delete {env : ScanEnv} (hf : env.filter.PrunesExcluded) {cache : Cache}
    {lamport seq : ℤ} {blobs : Blobs} {op : Op}
    (hop : op ∈ (env.scan (.start cache lamport seq blobs)).ops) (hkind : op.kind = .delete)
    {dir : GoString} (hdir : dir ∈ ancestors op.path) : env.filter.pruneDir dir = false := by
  rcases (scanMint_of_mem hop).source with ⟨_, _, _, -, -, hput⟩ | ⟨-, hcarried, hkept⟩
  · rw [hput.1] at hkind
    cases hkind
  · obtain ⟨init, last, heq, hinit, hlast, rfl⟩ := mem_ancestors_iff.mp hdir
    rw [neverSync, Bool.or_eq_false_iff, Bool.not_eq_false'] at hcarried
    rw [← joinSlash_segments op.path, heq, joinSlash_append hinit hlast] at hkept hcarried
    by_contra hprune
    rw [hf _ _ (Bool.not_eq_false _ ▸ hprune) (lineFeed_notMem_of_safePath hcarried.1)] at hkept
    cases hkept

/-! ### Rules that end in a slash -/

/-- No segment of a safe path is empty. -/
theorem not_infix_of_safePath {d : GoString} (hd : safePath d = true) {c : UInt8} (hc : c ≠ slash) :
    ¬ [slash, slash] <:+: d ++ [slash, c] ∧ ¬ [slash] <+: d ++ [slash, c] := by
  have hone : segments [c] = [[c]] := segments_of_not_mem (by simpa using hc.symm)
  have hsegs : ∀ seg ∈ segments (d ++ slash :: [c]), seg ≠ [] := by
    intro seg hseg
    rw [segments_append, hone, List.mem_append, List.mem_singleton] at hseg
    rcases hseg with hseg | rfl
    · exact ((safePath_iff.mp hd).1 seg hseg).1
    · exact List.cons_ne_nil _ _
  have hempty (q : GoString) : [] ∈ segments (slash :: q) := by
    rw [← List.nil_append (slash :: q), segments_append, segments_nil]
    exact List.mem_append_left _ (List.mem_singleton_self _)
  constructor
  · rintro ⟨a, b, heq⟩
    refine hsegs [] ?_ rfl
    rw [← heq, List.append_assoc, List.cons_append, segments_append]
    exact List.mem_append_right _ (hempty b)
  · rintro ⟨b, heq⟩
    refine hsegs [] ?_ rfl
    rw [← heq]
    exact hempty b

/-- What an expression that ends in a slash has matched in front of its tail. -/
theorem front_of_closed {p : Pattern} (hclosed : p.endsOpen = false) {pre u : List Rune}
    (hpre : p.StartsAt pre) (hu : Spells p.elems u) :
    pre ++ u = [] ∨ ∃ x, pre ++ u = x ++ [slashRune] := by
  rw [Pattern.endsOpen, Bool.or_eq_false_iff] at hclosed
  cases hlast : p.elems.getLast? with
  | none =>
    rw [List.getLast?_eq_none_iff.mp hlast] at hu
    rw [show u = [] from hu, List.append_nil]
    exact hpre.imp id And.right
  | some e =>
    rw [hlast, Option.any_some, bne_eq_false_iff_eq] at hclosed
    obtain ⟨es, hes⟩ := List.getLast?_eq_some_iff.mp hlast
    rw [hes, spells_append] at hu
    obtain ⟨a, b, rfl, -, hb⟩ := hu
    rw [spells_singleton, hclosed.2] at hb
    exact .inr ⟨pre ++ a, by rw [show b = [slashRune] from hb, List.append_assoc]⟩

theorem not_regexMatch_below {p : Pattern} (hclosed : p.endsOpen = false) {d : GoString}
    (hd : safePath d = true) {c : UInt8} (hc : c ≠ slash) (hascii : c < 0x80) :
    p.regexMatch (d ++ [slash, c]) = false := by
  by_contra h
  obtain ⟨pre, u, v, heq, hpre, hu, hv⟩ := regexMatch_iff.mp (Bool.not_eq_false _ ▸ h)
  obtain ⟨hdouble, hfirst⟩ := not_infix_of_safePath hd hc
  have hsingle : ∀ r ∈ [slashRune], r < 0x80 := by decide
  have hruns : runes (d ++ [slash, c]) = (runes d ++ [slashRune]) ++ [c.toNat] := by
    rw [runes_append_ascii slash_ascii, runes_slash, runes_cons_ascii hascii, runes_nil]
    simp
  have hdir : p.dirOnly = false := (Bool.or_eq_false_iff.mp hclosed).1
  rw [hdir] at hv
  have hfront := front_of_closed hclosed hpre hu
  cases v with
  | nil =>
    rw [List.append_nil, hruns] at heq
    rcases hfront with hnil | ⟨x, hx⟩
    · rw [hnil] at heq
      simp at heq
    · rw [hx] at heq
      have hlast := (List.append_inj' heq rfl).2
      exact hc (UInt8.toNat_inj.mp (List.cons.inj hlast).1)
  | cons r w =>
    rw [matchTail, Bool.and_eq_true, beq_iff_eq] at hv
    obtain ⟨rfl, -⟩ := hv
    rw [← List.append_assoc] at heq
    rcases hfront with hnil | ⟨x, hx⟩
    · obtain ⟨s₁, s₂, hs, hs₁, -⟩ := @exists_of_runes_eq _ [] [slashRune] w (by rw [heq, hnil]; rfl)
        hsingle
      exact hfirst ⟨s₂, by rw [hs, hs₁ rfl]; rfl⟩
    · obtain ⟨s₁, s₂, hs, -⟩ := @exists_of_runes_eq _ x [slashRune, slashRune] w
        (by rw [heq, hx]; simp) (by decide)
      exact hdouble ⟨s₁, s₂, hs.symm⟩

/-- What a rule without a wildcard that ends in a slash names. -/
theorem exactSeg_of_closed {p : Pattern} (hp : p.Fine) (hne : p.exactSeg ≠ [])
    (hclosed : p.endsOpen = false) : ∃ init, p.exactSeg = init ++ [slash] := by
  rw [Pattern.endsOpen, Bool.or_eq_false_iff, hp.elems hne, List.getLast?_map] at hclosed
  cases hlast : (runes p.exactSeg).getLast? with
  | none =>
    rw [List.getLast?_eq_none_iff, runes, List.map_eq_nil_iff] at hlast
    have hflat := flatten_decodeAll p.exactSeg
    rw [hlast] at hflat
    exact absurd hflat.symm hne
  | some r =>
    rw [hlast, Option.map_some, Option.any_some, bne_eq_false_iff_eq] at hclosed
    obtain ⟨x, hx⟩ := List.getLast?_eq_some_iff.mp hlast
    rw [Elem.lit.inj hclosed.2] at hx
    obtain ⟨s₁, s₂, hs, -, hs₂⟩ := @exists_of_runes_eq _ x [slashRune] [] (by rw [hx]; simp)
      (by decide)
    exact ⟨s₁, by rw [hs, hs₂ rfl, List.append_nil]; rfl⟩

/-- **A rule that ends in a slash matches no file of one letter in a directory.** -/
theorem not_matches_below {p : Pattern} (hp : p.Fine) (hclosed : p.endsOpen = false) {d : GoString}
    (hd : safePath d = true) {c : UInt8} (hc : c ≠ slash) (hascii : c < 0x80) :
    p.matches (d ++ [slash, c]) = false := by
  have hregex := not_regexMatch_below hclosed hd hc hascii
  rw [Pattern.matches]
  split
  case isFalse => split_ifs <;> first | rfl | exact hregex
  case isTrue hne =>
    obtain ⟨hdouble, -⟩ := not_infix_of_safePath hd hc
    obtain ⟨init, hinit⟩ := exactSeg_of_closed hp hne hclosed
    have hdir : p.dirOnly = false := (Bool.or_eq_false_iff.mp hclosed).1
    have hend : ¬ [slash] <:+ d ++ [slash, c] := by
      rw [List.append_cons]
      rintro ⟨x, hx⟩
      exact hc (List.cons.inj (List.append_inj' hx rfl).2).1.symm
    have hexact : ¬ p.exactSeg <:+ d ++ [slash, c] := fun h =>
      hend ((hinit ▸ List.suffix_append init [slash]).trans h)
    have hname : (d ++ [slash, c] == p.exactSeg) = false :=
      beq_eq_false_iff_ne.mpr fun h => hexact (h ▸ List.suffix_rfl)
    have hprefix : hasPrefix (d ++ [slash, c]) p.segPrefix = false := by
      rw [hasPrefix_eq_false_iff, hp.segPrefix hne, hinit, List.append_assoc]
      exact fun h => hdouble ((List.suffix_append init _).isInfix.trans h.isInfix)
    cases hanch : p.anchored with
    | true => simp [hdir, hname, hprefix]
    | false =>
      have hsuffix : hasSuffix (d ++ [slash, c]) p.segSuffix = false := by
        rw [Bool.eq_false_iff, ne_eq, hasSuffix_iff, hp.segSuffix hne hanch]
        exact fun h => hexact ((List.suffix_cons _ _).trans h)
      have hinfix : contains (d ++ [slash, c]) p.segInfix = false := by
        rw [Bool.eq_false_iff, ne_eq, contains_iff, hp.segInfix hne hanch, hinit]
        exact fun h => hdouble (List.IsInfix.trans ⟨slash :: init, [], by simp⟩ h)
      simp [hdir, hname, hprefix, hsuffix, hinfix]

/-! ### The folder's filter -/

end Beardrive
