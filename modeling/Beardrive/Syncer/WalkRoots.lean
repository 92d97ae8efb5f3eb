import Beardrive.Syncer.Folder

/-!
# Walking watched paths

A bounded walk starts at the watched paths instead of the top of the folder. Below a watched path
it meets what the whole walk meets there, with two differences. It may start inside a directory
the whole walk cannot list. And it fails where the whole walk would have nothing to ask about: at
a watched path that now lies below a regular file.

## Main results

* `visit_mem_walkRoot` — what the whole walk visits, a bounded walk visits
* `mem_walkRoot` — where else the events of a bounded walk come from
-/

namespace Beardrive

variable {f : Filter} {folder : Folder} {closed : GoString → Bool} {dir names : List GoString}
  {entries : List (GoString × Node)} {n : Node}

/-! ### What a path answers -/

theorem lstatEntries_cons_cons {name : GoString} (hne : names ≠ []) :
    lstatEntries closed dir (name :: names) entries =
      match entries.lookup name with
      | some (.dir readable sub) =>
        if !readable && closed (joinSlash (dir ++ [name])) then .failed
        else lstatEntries closed (dir ++ [name]) names sub
      | some (.symlink ..) =>
        if closed (joinSlash (dir ++ name :: names)) then .failed else .missing
      | some _ => .failed
      | none => .missing := by
  cases names with
  | nil => exact absurd rfl hne
  | cons => rfl

theorem lstatEntries_cons_eq_found {name : GoString} (hne : names ≠ []) :
    lstatEntries closed dir (name :: names) entries = .found n ↔
      ∃ readable sub, entries.lookup name = some (.dir readable sub) ∧
        (!readable && closed (joinSlash (dir ++ [name]))) = false ∧
          lstatEntries closed (dir ++ [name]) names sub = .found n := by
  rw [lstatEntries_cons_cons hne]
  constructor
  · intro h
    split at h
    · rename_i readable sub hlook
      split at h
      · cases h
      · exact ⟨readable, sub, hlook, Bool.not_eq_true _ ▸ ‹_›, h⟩
    · split at h <;> cases h
    · cases h
    · cases h
  · rintro ⟨readable, sub, hlook, hopen, h⟩
    simp only [hlook, hopen]
    exact h

/-- On the way to what is found there are directories. -/
theorem lstatEntries_init {init last : List GoString} (hinit : init ≠ []) (hlast : last ≠ [])
    (h : lstatEntries closed dir (init ++ last) entries = .found n) :
    ∃ readable sub, lstatEntries closed dir init entries = .found (.dir readable sub) := by
  induction init generalizing dir entries with
  | nil => exact absurd rfl hinit
  | cons name init ih =>
    obtain ⟨readable, sub, hlook, hopen, hrest⟩ :=
      (lstatEntries_cons_eq_found (by simp [hlast])).mp h
    by_cases hne : init = []
    · subst hne
      exact ⟨readable, sub, by rw [lstatEntries, hlook]⟩
    · obtain ⟨readable', sub', hfound⟩ := ih hne hrest
      exact ⟨readable', sub',
        (lstatEntries_cons_eq_found hne).mpr ⟨readable, sub, hlook, hopen, hfound⟩⟩

/-- What stands behind directories that are all entered is found. -/
theorem lstatEntries_of_reached (h : lookupEntries names entries = some n)
    (hreach : Reached f dir entries names) : lstatEntries closed dir names entries = .found n := by
  induction names generalizing dir entries with
  | nil => simp [lookupEntries] at h
  | cons name names ih =>
    by_cases hne : names = []
    · subst hne
      have hlook : entries.lookup name = some n := h
      rw [lstatEntries, hlook]
    · obtain ⟨sub, hlook, -, hrest⟩ := (reached_cons hne).mp hreach
      rw [lookupEntries_cons_cons hne, hlook] at h
      exact (lstatEntries_cons_eq_found hne).mpr ⟨true, sub, hlook, rfl, ih h hrest⟩

theorem lookupEntries_of_lstat (h : lstatEntries closed dir names entries = .found n) :
    lookupEntries names entries = some n := by
  induction names generalizing dir entries with
  | nil => simp [lstatEntries] at h
  | cons name names ih =>
    by_cases hne : names = []
    · subst hne
      rw [lstatEntries] at h
      split at h
      · rw [← Lstat.found.inj h]
        assumption
      · cases h
    · obtain ⟨readable, sub, hlook, -, hrest⟩ := (lstatEntries_cons_eq_found hne).mp h
      rw [lookupEntries_cons_cons hne, hlook]
      exact ih hrest

theorem lstat_eq_found (h : folder.lstat names = .found n) :
    lstatEntries folder.closed [] names folder.entries = .found n := by
  rw [Folder.lstat] at h
  split at h
  · cases h
  · exact h

/-! ### Boundaries -/

/-- The beginnings of a path that lie above it. -/
theorem mem_dropLast_inits_tail {α : Type*} {l init : List α} (hl : l ≠ []) :
    init ∈ l.dropLast.inits.tail ↔ init ≠ [] ∧ ∃ last, last ≠ [] ∧ l = init ++ last := by
  have htail : init ∈ l.dropLast.inits.tail ↔ init ≠ [] ∧ init <+: l.dropLast := by
    generalize l.dropLast = k
    cases k with
    | nil => simp
    | cons a k =>
      cases init with
      | nil => simp
      | cons b init => simp [List.cons_prefix_cons, and_comm, eq_comm]
  rw [htail]
  refine and_congr_right fun _ => ?_
  constructor
  · rintro ⟨last, hlast⟩
    refine ⟨last ++ [l.getLast hl], by simp, ?_⟩
    rw [← List.append_assoc, hlast, List.dropLast_append_getLast]
  · rintro ⟨last, hne, rfl⟩
    exact ⟨last.dropLast, (List.dropLast_append_of_ne_nil hne).symm⟩

/-- A path that is found lies beyond no boundary exactly when every directory above it is one the
walk descends into. -/
theorem targetUnderNestedMount_eq_false_iff (hfound : folder.lstat names = .found n)
    (hne : names ≠ []) :
    targetUnderNestedMount f folder names = false ↔
      ∀ init last, names = init ++ last → init ≠ [] → last ≠ [] → ∀ readable sub,
        folder.lstat init = .found (.dir readable sub) →
          verdict f init (.dir readable sub) = .descend := by
  have habove : ∀ init ∈ names.dropLast.inits.tail.reverse,
      ∃ readable sub, folder.lstat init = .found (.dir readable sub) := by
    intro init hinit
    obtain ⟨hne', last, hlast, rfl⟩ := (mem_dropLast_inits_tail hne).mp (List.mem_reverse.mp hinit)
    obtain ⟨readable, sub, hsub⟩ := lstatEntries_init hne' hlast (lstat_eq_found hfound)
    refine ⟨readable, sub, ?_⟩
    rw [Folder.lstat] at hfound ⊢
    split at hfound
    · cases hfound
    · rw [if_neg ‹_›, hsub]
  rw [targetUnderNestedMount]
  split
  · rename_i hnone
    rw [List.find?_eq_none] at hnone
    simp only [true_iff]
    intro init last heq hinit hlast readable sub hsub
    have hmem : init ∈ names.dropLast.inits.tail.reverse :=
      List.mem_reverse.mpr ((mem_dropLast_inits_tail hne).mpr ⟨hinit, last, hlast, heq⟩)
    have hpass := hnone init hmem
    simp only [hsub, Bool.or_eq_true, not_or, Bool.not_eq_true] at hpass
    exact verdict_dir_eq_descend_iff.mpr ⟨hpass.1.1, hpass.1.2, hpass.2⟩
  · rename_i init hsome
    have hmem := List.mem_of_find?_eq_some hsome
    obtain ⟨readable, sub, hsub⟩ := habove init hmem
    obtain ⟨hinit, last, hlast, heq⟩ :=
      (mem_dropLast_inits_tail hne).mp (List.mem_reverse.mp hmem)
    have hstop := List.find?_some hsome
    simp only [hsub] at hstop ⊢
    simp only [Bool.true_eq_false, false_iff]
    intro h
    obtain ⟨h1, h2, h3⟩ :=
      verdict_dir_eq_descend_iff.mp (h init last heq hinit hlast readable sub hsub)
    simp [h1, h2, h3] at hstop

/-! ### What a bounded walk meets -/

/-- The walk of a directory meets what the walk of an entry below meets, unless it fails at a
directory on the way. -/
theorem mem_walkEntries_of_walkNode (hne : names ≠ [])
    (hfound : lstatEntries closed dir names entries = .found n)
    (hdescend : ∀ init last, names = init ++ last → init ≠ [] → last ≠ [] → ∀ readable sub,
      lstatEntries closed dir init entries = .found (.dir readable sub) →
        verdict f (dir ++ init) (.dir readable sub) = .descend) :
    (∀ e ∈ walkNode f (dir ++ names) n, e ∈ walkEntries f dir entries) ∨
      ∃ init last, names = init ++ last ∧ last ≠ [] ∧
        .failed (dir ++ init) ∈ walkEntries f dir entries := by
  induction names generalizing dir entries with
  | nil => exact absurd rfl hne
  | cons name names ih =>
    by_cases hlast : names = []
    · subst hlast
      have hlook : entries.lookup name = some n := lookupEntries_of_lstat hfound
      exact .inl fun e he => mem_walkEntries_iff.mpr ⟨name, n, mem_of_lookup hlook, he⟩
    · obtain ⟨readable, sub, hlook, hopen, hrest⟩ := (lstatEntries_cons_eq_found hlast).mp hfound
      have hv : verdict f (dir ++ [name]) (.dir readable sub) = .descend :=
        hdescend [name] names rfl (by simp) hlast readable sub (by rw [lstatEntries, hlook])
      have hmem := mem_of_lookup hlook
      cases readable with
      | false =>
        exact .inr ⟨[name], names, rfl, hlast, mem_walkEntries_iff.mpr ⟨name, _, hmem,
          mem_walkNode_iff.mpr (.inr ⟨hv, .inr ⟨sub, rfl, rfl⟩⟩)⟩⟩
      | true =>
        have hlift : ∀ e ∈ walkEntries f (dir ++ [name]) sub, e ∈ walkEntries f dir entries :=
          fun e he => mem_walkEntries_iff.mpr ⟨name, _, hmem,
            mem_walkNode_iff.mpr (.inr ⟨hv, .inl ⟨sub, rfl, he⟩⟩)⟩
        rcases ih hlast hrest fun init last heq hinit hlast' readable' sub' hsub => by
          have h := hdescend (name :: init) last (by rw [heq]; rfl) (by simp) hlast' readable' sub'
            ((lstatEntries_cons_eq_found hinit).mpr ⟨true, sub, hlook, rfl, hsub⟩)
          rwa [List.append_assoc] with hall | ⟨init, last, heq, hlast', hfail⟩
        · refine .inl fun e he => hlift e (hall e ?_)
          rwa [List.append_assoc]
        · refine .inr ⟨name :: init, last, by rw [heq]; rfl, hlast', ?_⟩
          have := hlift _ hfail
          rwa [List.append_assoc] at this

/-- **Where the events of a bounded walk come from**: the whole walk meets them too, or it fails
at a directory above the watched path, or the watched path itself could not be asked about. -/
theorem mem_walkRoot (hne : names ≠ []) {e : WalkEvent} (he : e ∈ walkRoot f folder names) :
    e ∈ walkFolder f folder none ∨
      (∃ init last, names = init ++ last ∧ last ≠ [] ∧
        .failed init ∈ walkFolder f folder none) ∨
      (e = .failed names ∧ folder.lstat names = .failed ∧
        targetUnderNestedMount f folder names = false) := by
  rw [walkRoot] at he
  split at he
  · cases he
  · rename_i htarget
    rw [Bool.not_eq_true] at htarget
    split at he
    · rename_i n hfound
      rw [walkFolder]
      split
      · have hdescend := (targetUnderNestedMount_eq_false_iff hfound hne).mp htarget
        have hopen : ∀ init n, lstatEntries folder.closed [] init folder.entries = .found n →
            folder.lstat init = .found n := by
          intro init n h
          rw [Folder.lstat, if_neg (by simp [*])]
          exact h
        rcases mem_walkEntries_of_walkNode (f := f) hne (lstat_eq_found hfound)
          fun init last heq hinit hlast readable sub hsub =>
            hdescend init last heq hinit hlast readable sub (hopen _ _ hsub) with hall | hfail
        · exact .inl (hall e he)
        · exact .inr (.inl hfail)
      · exact .inr (.inl ⟨[], names, rfl, hne, List.mem_singleton_self _⟩)
    · cases he
    · exact .inr (.inr ⟨List.mem_singleton.mp he, ‹_›, htarget⟩)

theorem names_of_mem_walkRoot {e : WalkEvent} (he : e ∈ walkRoot f folder names) :
    ∃ rest, e.names = names ++ rest := by
  rw [walkRoot] at he
  split at he
  · cases he
  · split at he
    · exact names_of_mem_walkNode f names _ e he
    · cases he
    · rw [List.mem_singleton.mp he]
      exact ⟨[], by simp [WalkEvent.names]⟩

theorem lookupEntries_append_dir {init last : List GoString} {readable : Bool}
    {sub : List (GoString × Node)} (hlast : last ≠ [])
    (h : lookupEntries init entries = some (.dir readable sub)) :
    lookupEntries (init ++ last) entries = lookupEntries last sub := by
  induction init generalizing entries with
  | nil => simp [lookupEntries] at h
  | cons name init ih =>
    rw [List.cons_append, lookupEntries_cons_cons (by simp [hlast])]
    by_cases hne : init = []
    · subst hne
      have hlook : entries.lookup name = some (.dir readable sub) := h
      rw [hlook]
      rfl
    · rw [lookupEntries_cons_cons hne] at h
      split at h
      · exact ih h
      · cases h

theorem wellFormed_of_lookupEntries (hwf : wellFormedEntries entries = true) {readable : Bool}
    {sub : List (GoString × Node)} (h : lookupEntries names entries = some (.dir readable sub)) :
    wellFormedEntries sub = true := by
  induction names generalizing entries with
  | nil => simp [lookupEntries] at h
  | cons name names ih =>
    by_cases hne : names = []
    · subst hne
      simpa [Node.wellFormed] using (wellFormed_of_mem hwf (mem_of_lookup h)).2
    · rw [lookupEntries_cons_cons hne] at h
      split at h
      · rename_i sub' hlook
        refine ih ?_ h
        simpa [Node.wellFormed] using (wellFormed_of_mem hwf (mem_of_lookup hlook)).2
      · cases h

theorem Reached.init {init last : List GoString} (h : Reached f dir entries (init ++ last)) :
    Reached f dir entries init := by
  intro init' last' heq hinit hlast
  exact h init' (last' ++ last) (by rw [heq, List.append_assoc]) hinit (by simp [hlast])

theorem Reached.last {init last : List GoString} {sub : List (GoString × Node)}
    (h : Reached f dir entries (init ++ last))
    (hinit : lookupEntries init entries = some (.dir true sub)) :
    Reached f (dir ++ init) sub last := by
  intro init' last' heq hinit' hlast'
  obtain ⟨n, hn, hent⟩ := h (init ++ init') last' (by rw [heq, List.append_assoc])
    (by simp [hinit']) hlast'
  rw [lookupEntries_append_dir hinit' hinit] at hn
  exact ⟨n, hn, by rwa [List.append_assoc]⟩

/-- **What the whole walk visits below a watched path, the bounded walk visits.** -/
theorem visit_mem_walkRoot {init last : List GoString} {v : Verdict} (hne : init ≠ [])
    (h : .visit (init ++ last) n v ∈ walkFolder f folder none) :
    .visit (init ++ last) n v ∈ walkRoot f folder init := by
  have hread : folder.readable = true := by
    by_contra hread
    rw [walkFolder, if_neg hread, List.mem_singleton] at h
    cases h
  obtain ⟨hn, rfl, hreach⟩ := (visit_mem_walkFolder_iff hread).mp h
  -- the node at the watched path, and that the walk of it meets the visit
  obtain ⟨m, hm, hvisit⟩ : ∃ m, lookupEntries init folder.entries = some m ∧
      .visit (init ++ last) n (verdict f (init ++ last) n) ∈ walkNode f init m := by
    by_cases hlast : last = []
    · subst hlast
      rw [List.append_nil] at hn ⊢
      exact ⟨n, hn, mem_walkNode_iff.mpr (.inl rfl)⟩
    · obtain ⟨m, hm, hv, sub, rfl⟩ := hreach init last rfl hne hlast
      refine ⟨_, hm, mem_walkNode_iff.mpr (.inr ⟨hv, .inl ⟨sub, rfl, ?_⟩⟩)⟩
      rw [lookupEntries_append_dir hlast hm] at hn
      exact (visit_mem_walkEntries_iff init (wellFormed_of_lookupEntries folder.wellFormed hm)).mpr
        ⟨hn, rfl, hreach.last hm⟩
  have hlstat : ∀ names m, lookupEntries names folder.entries = some m →
      Reached f [] folder.entries names → folder.lstat names = .found m := by
    intro names m hm hr
    rw [Folder.lstat, if_neg (by simp [hread])]
    exact lstatEntries_of_reached hm hr
  have hfound := hlstat init m hm hreach.init
  have htarget : targetUnderNestedMount f folder init = false := by
    rw [targetUnderNestedMount_eq_false_iff hfound hne]
    rintro init' last' rfl hinit' hlast' readable sub hsub
    obtain ⟨m', hm', hv, -⟩ := hreach.init init' last' rfl hinit' hlast'
    rw [hlstat init' m' hm' (hreach.init.init)] at hsub
    rw [← Lstat.found.inj hsub]
    exact hv
  rw [walkRoot, if_neg (by simp [htarget]), hfound]
  exact hvisit

/-- What a walk visits stands where it was visited. -/
theorem lookup_of_visit_mem_walkFolder {roots : Option (List GoString)} {v : Verdict}
    (h : .visit names n v ∈ walkFolder f folder roots) :
    lookupEntries names folder.entries = some n := by
  cases roots with
  | none =>
    have hread : folder.readable = true := by
      by_contra hread
      rw [walkFolder, if_neg hread, List.mem_singleton] at h
      cases h
    exact ((visit_mem_walkFolder_iff hread).mp h).1
  | some roots =>
    rw [walkFolder, List.mem_flatMap] at h
    obtain ⟨root, -, h⟩ := h
    rw [walkRoot] at h
    split at h
    · cases h
    · split at h
      · rename_i m hfound
        have hm := lookupEntries_of_lstat (lstat_eq_found hfound)
        rcases mem_walkNode_iff.mp h with heq | ⟨-, ⟨sub, rfl, hin⟩ | ⟨sub, -, heq⟩⟩
        · obtain ⟨rfl, rfl, -⟩ := WalkEvent.visit.inj heq
          exact hm
        · obtain ⟨name, rest, hrest⟩ := names_of_mem_walkEntries f _ sub _ hin
          obtain rfl : names = segments root ++ name :: rest := hrest
          rw [lookupEntries_append_dir (by simp) hm]
          exact ((visit_mem_walkEntries_iff _
            (wellFormed_of_lookupEntries folder.wellFormed hm)).mp hin).1
        · cases heq
      · cases h
      · cases List.mem_singleton.mp h

end Beardrive
