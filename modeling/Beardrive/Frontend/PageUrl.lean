import Beardrive.Frontend.Router

/-!
# The address of a page opens that page

Behind the project an address is one path, encoded: the file's own, or that with `edit` in front, or
the word of a view with its target. So reading it back is reading that path, and then what its first
segment says. The query string is a list of names and values that are read back apart from it.

## Main results

* `encodePath_eq` — a path is encoded byte by byte, the slashes as they are
* `decodePath_encodePath` — a path is read back
* `parsePath_hub`, `parsePath_volume` — what is behind the project
* `parseRoute_url` — the address of a page opens that page
-/

namespace Beardrive.Router

/-! ### Paths -/

/-- What a path keeps. -/
def pathKeep (b : UInt8) : Bool := uriKeep b || b = slash

theorem validUTF8_append_slash {s t : GoString} (h : validUTF8 (s ++ slash :: t) = true) :
    validUTF8 s = true ∧ validUTF8 t = true := by
  rw [validUTF8, decodeAll_append_ascii (by decide), decodeAll_cons_ascii (by decide),
    List.all_append, List.all_cons, Bool.and_eq_true, Bool.and_eq_true] at h
  exact ⟨h.1, h.2.2⟩

theorem validUTF8_slash_append {s t : GoString} (hs : validUTF8 s = true)
    (ht : validUTF8 t = true) : validUTF8 (s ++ slash :: t) = true := by
  rw [validUTF8, decodeAll_append_ascii (by decide), decodeAll_cons_ascii (by decide),
    List.all_append, List.all_cons, Bool.and_eq_true, Bool.and_eq_true]
  exact ⟨hs, rfl, ht⟩

/-- The segments of a text are texts. -/
theorem validUTF8_of_mem_segments {p seg : GoString} (h : validUTF8 p = true)
    (hseg : seg ∈ segments p) : validUTF8 seg = true := by
  rw [← joinSlash_segments p] at h
  generalize segments p = segs at h hseg
  induction segs with
  | nil => cases hseg
  | cons s segs ih =>
    by_cases hne : segs = []
    · subst hne
      rw [List.mem_singleton.mp hseg]
      have hone : joinSlash [s] = s := List.append_nil s
      rwa [hone] at h
    · rw [joinSlash_cons s hne] at h
      obtain ⟨hfirst, hrest⟩ := validUTF8_append_slash h
      rcases List.mem_cons.mp hseg with rfl | hseg
      · exact hfirst
      · exact ih hrest hseg

theorem notMem_encodeURIComponent (s : GoString) : slash ∉ encodeURIComponent s := by
  intro h
  rcases mem_percentEncode h with h | h | ⟨h, -⟩ | ⟨h, -⟩
  · cases h
  · cases h
  · exact absurd h (by decide)
  · exact absurd h (by decide)

/-- **A path is encoded byte by byte**, the slashes as they are. -/
theorem encodePath_eq (p : GoString) : encodePath p = percentEncode pathKeep p := by
  have hslash : ∀ seg ∈ segments p, slash ∉ seg := fun seg h => not_mem_of_mem_segments h
  have hself {seg : GoString} (h : slash ∉ seg) :
      encodeURIComponent seg = percentEncode pathKeep seg := by
    refine List.flatMap_congr fun b hb => ?_
    have hne : b ≠ slash := fun heq => h (heq ▸ hb)
    rw [percentByte, percentByte, pathKeep, decide_eq_false hne, Bool.or_false]
  rw [encodePath]
  nth_rewrite 2 [← joinSlash_segments p]
  generalize segments p = segs at hslash
  induction segs with
  | nil => rfl
  | cons s segs ih =>
    have hrest := ih fun seg h => hslash seg (List.mem_cons_of_mem s h)
    by_cases hne : segs = []
    · subst hne
      have hone (s : GoString) : joinSlash [s] = s := List.append_nil s
      rw [List.map_singleton, hone, hone, hself (hslash s (List.mem_singleton_self s))]
    · have hmap : segs.map encodeURIComponent ≠ [] := by simpa using hne
      rw [List.map_cons, joinSlash_cons _ hmap, joinSlash_cons _ hne, hrest,
        hself (hslash s (List.mem_cons_self ..)), percentEncode, percentEncode, percentEncode,
        List.flatMap_append, List.flatMap_cons]
      rfl

theorem decodeSegment_encodeURIComponent {s : GoString} (h : validUTF8 s = true) :
    decodeSegment (encodeURIComponent s) = s := by
  rw [decodeSegment, decodeURIComponent, encodeURIComponent,
    percentDecode_percentEncode (by decide), Option.filter_some, if_pos (by simpa using h),
    Option.getD_some]

/-- **A path is read back.** -/
theorem decodePath_encodePath {p : GoString} (h : validUTF8 p = true) :
    decodePath (encodePath p) = p := by
  have hsegs : segments (encodePath p) = (segments p).map encodeURIComponent := by
    refine segments_joinSlash (fun seg hseg => ?_) (by simpa using segments_ne_nil p)
    obtain ⟨s, -, rfl⟩ := List.mem_map.mp hseg
    exact notMem_encodeURIComponent s
  rw [decodePath, hsegs, List.map_map]
  have hid : ∀ s ∈ segments p, (decodeSegment ∘ encodeURIComponent) s = s := fun s hs =>
    decodeSegment_encodeURIComponent (validUTF8_of_mem_segments h hs)
  rw [List.map_congr_left hid, List.map_id', joinSlash_segments]

/-- An encoded path has no question mark. -/
theorem notMem_encodePath (p : GoString) : 0x3F ∉ encodePath p := by
  rw [encodePath_eq]
  intro h
  rcases mem_percentEncode h with h | h | ⟨-, h⟩ | ⟨h, -⟩
  · cases h
  · cases h
  · exact absurd h (by decide)
  · exact absurd h (by decide)

theorem encodePath_eq_nil_iff {p : GoString} : encodePath p = [] ↔ p = [] := by
  rw [encodePath_eq, percentEncode_eq_nil_iff]

theorem trimEnd_of_last {s : GoString} (h : s.getLast? ≠ some slash) : trimEnd s = s := by
  rw [trimEnd, List.rdropWhile_eq_self_iff]
  intro hne hlast
  exact h (by rw [List.getLast?_eq_getLast_of_ne_nil hne, of_decide_eq_true hlast])

/-- A path that does not end in a slash does not when it is encoded. -/
theorem getLast?_encodePath {p : GoString} (h : p.getLast? ≠ some slash) :
    (encodePath p).getLast? ≠ some slash := by
  rw [encodePath_eq]
  rcases List.eq_nil_or_concat p with rfl | ⟨init, b, rfl⟩
  · nofun
  · rw [List.concat_eq_append, List.getLast?_concat] at h
    have hdigit := (upperHex_spec (d := b.toNat % 16) (Nat.mod_lt _ (by decide))).2.2
    rw [List.concat_eq_append, percentEncode, List.flatMap_append, List.flatMap_singleton]
    rcases @percentByte_cases pathKeep b with ⟨-, heq⟩ | heq
    · rw [heq, List.getLast?_concat]
      exact h
    · rw [heq]
      have hlast (a c d : UInt8) (l : GoString) : (l ++ [a, c, d]).getLast? = some d := by simp
      rw [hlast]
      intro hslash
      rw [Option.some.inj hslash] at hdigit
      rcases hdigit with ⟨h, -⟩ | ⟨h, -⟩
      · exact absurd h (by decide)
      · exact absurd h (by decide)

theorem encodePath_slash {word : GoString} (hkeep : ∀ b ∈ word, uriKeep b = true) (p : GoString) :
    encodePath (word ++ slash :: p) = word ++ slash :: encodePath p := by
  have hself : percentEncode pathKeep word = word :=
    percentEncode_eq_self fun b hb => by rw [pathKeep, hkeep b hb, Bool.true_or]
  rw [encodePath_eq, encodePath_eq, percentEncode, List.flatMap_append, List.flatMap_cons]
  nth_rewrite 2 [← hself]
  rfl

theorem headSeg_append {word : GoString} (h : slash ∉ word) (p : GoString) :
    headSeg (word ++ slash :: p) = word ∧ afterHead (word ++ slash :: p) = p := by
  have hall : ∀ b ∈ word, decide (b ≠ slash) = true := fun b hb =>
    decide_eq_true fun heq => h (heq ▸ hb)
  rw [headSeg, afterHead, List.takeWhile_append_of_pos hall, List.dropWhile_append_of_pos hall]
  simp

/-! ### The query string -/

theorem formKeep_keeps : FormKeep formKeep := ⟨by decide, by decide, by decide, by decide⟩

/-- An address is its path and what its query string says. -/
theorem split_url {path : GoString} (hpath : 0x3F ∉ path) {pairs : List (GoString × GoString)}
    (h : ∀ pair ∈ pairs, validUTF8 pair.1 = true ∧ validUTF8 pair.2 = true) :
    (path ++ queryText pairs).takeWhile (fun b => b ≠ 0x3F) = path ∧
      formPairs (((path ++ queryText pairs).dropWhile fun b => b ≠ 0x3F).drop 1) = pairs := by
  have hall : ∀ b ∈ path, decide (b ≠ 0x3F) = true := fun b hb =>
    decide_eq_true fun heq => hpath (heq ▸ hb)
  rw [List.takeWhile_append_of_pos hall, List.dropWhile_append_of_pos hall, queryText]
  split_ifs with hnil
  · subst hnil
    exact ⟨List.append_nil path, rfl⟩
  · have hread := formKeep_keeps.formPairs_formText h
    refine ⟨by simp, ?_⟩
    simpa using hread

theorem formEncode_of_kept {s : GoString} (h : ∀ b ∈ s, formKeep b = true) :
    formEncode formKeep s = s := by
  have hself : ∀ b ∈ s, (if b = 0x20 then [0x2B] else percentByte formKeep b) = [b] := by
    intro b hb
    rw [if_neg, percentByte, if_pos (h b hb)]
    rintro rfl
    exact absurd (h _ hb) (by decide)
  rw [formEncode, List.flatMap_congr hself]
  exact List.flatMap_singleton' s

/-- What the query string of a file says. -/
def filePairs (version : Option GoString) (full : Bool) : List (GoString × GoString) :=
  (version.toList.map fun v => (ascii "v", v)) ++
    if full then [(ascii "full", ascii "1")] else []

theorem fileQuery_eq {version : Option GoString} (h : ∀ v ∈ version, blobSum v = true)
    (full : Bool) :
    version.elim [] (fun v => ascii "?v=" ++ v) ++
      (if full then (if version.isSome then ascii "&" else ascii "?") ++ ascii "full=1" else []) =
      queryText (filePairs version full) := by
  cases version with
  | none =>
    cases full with
    | false => decide
    | true => decide
  | some v =>
    have hv : formEncode formKeep v = v := by
      refine formEncode_of_kept fun b hb => ?_
      have hsum := h v rfl
      rw [blobSum, Bool.and_eq_true, List.all_eq_true] at hsum
      have hhex := hsum.2 b hb
      have hall : ∀ n : Fin 256, hexDigit (UInt8.ofNat n) = true →
          formKeep (UInt8.ofNat n) = true := by decide +kernel
      have hkept := hall ⟨b.toNat, b.toNat_lt⟩
      rw [UInt8.ofNat_toNat] at hkept
      exact hkept hhex
    have hname : formEncode formKeep (ascii "v") = ascii "v" := by decide
    have hfull : formPair formKeep (ascii "full", ascii "1") = ascii "full=1" := by decide
    have hpair : formPair formKeep (ascii "v", v) = ascii "v=" ++ v := by
      rw [formPair, hname, hv]
      rfl
    cases full with
    | false =>
      have hone : formText formKeep [(ascii "v", v)] = ascii "v=" ++ v := by
        rw [formText, List.map_singleton, hpair]
        exact List.append_nil _
      show ascii "?v=" ++ v ++ [] = 0x3F :: formText formKeep [(ascii "v", v)]
      rw [hone, List.append_nil]
      rfl
    | true =>
      have htwo : formText formKeep [(ascii "v", v), (ascii "full", ascii "1")] =
          ascii "v=" ++ v ++ ascii "&full=1" := by
        rw [formText, List.map_cons, List.map_singleton, hpair, hfull]
        simp only [List.intercalate, List.intersperse, List.flatten_cons, List.flatten_nil,
          List.append_nil, List.append_assoc]
        rfl
      show ascii "?v=" ++ v ++ (ascii "&" ++ ascii "full=1") =
        0x3F :: formText formKeep [(ascii "v", v), (ascii "full", ascii "1")]
      rw [htwo]
      rfl

/-! ### The filters -/

theorem name_injective {a b : HistoryKey} (h : a.name = b.name) : a = b := by
  cases a <;> cases b <;> first | rfl | exact absurd h (by decide)

theorem getParam_cons (pair : GoString × GoString) (pairs : List (GoString × GoString))
    (name : GoString) :
    getParam (pair :: pairs) name = if pair.1 = name then some pair.2 else getParam pairs name := by
  rw [getParam, List.find?_cons]
  by_cases h : pair.1 = name
  · rw [decide_eq_true h, if_pos h]
    rfl
  · rw [decide_eq_false h, if_neg h]
    rfl

/-- The filters in a query string, by name. -/
theorem getParam_filters (f : HistoryFilters) {keys : List HistoryKey} (h : keys.Nodup)
    (name : GoString) :
    getParam (keys.filterMap fun k => (truthy (f k)).map fun v => (k.name, v)) name =
      (keys.find? fun k => k.name = name).bind fun k => truthy (f k) := by
  induction keys with
  | nil => rfl
  | cons k keys ih =>
    obtain ⟨hk, hkeys⟩ := List.nodup_cons.mp h
    rw [List.find?_cons]
    by_cases hname : k.name = name
    · have hrest : keys.find? (fun k => k.name = name) = none := by
        refine List.find?_eq_none.mpr fun k' hk' heq => hk ?_
        rw [name_injective (hname.trans (of_decide_eq_true heq).symm)]
        exact hk'
      rw [decide_eq_true hname, Option.bind_some, List.filterMap_cons]
      cases hset : truthy (f k) with
      | none =>
        rw [Option.map_none]
        dsimp only
        rw [ih hkeys, hrest]
        rfl
      | some v =>
        rw [Option.map_some]
        dsimp only
        rw [getParam_cons, if_pos hname]
    · rw [decide_eq_false hname, ← ih hkeys, List.filterMap_cons]
      cases truthy (f k) with
      | none => rfl
      | some v =>
        rw [Option.map_some]
        dsimp only
        rw [getParam_cons, if_neg hname]

/-! ### Behind the project -/

theorem mem_intercalate {x b : UInt8} {groups : List GoString}
    (h : b ∈ [x].intercalate groups) : b = x ∨ ∃ g ∈ groups, b ∈ g := by
  rw [List.intercalate, List.mem_flatten] at h
  obtain ⟨l, hl, hb⟩ := h
  induction groups with
  | nil => cases hl
  | cons g groups ih =>
    cases groups with
    | nil =>
      rw [List.intersperse_singleton, List.mem_singleton] at hl
      exact .inr ⟨g, List.mem_singleton_self g, hl ▸ hb⟩
    | cons g' groups =>
      rw [List.intersperse_cons_cons, List.mem_cons, List.mem_cons] at hl
      rcases hl with rfl | rfl | hl
      · exact .inr ⟨l, List.mem_cons_self .., hb⟩
      · exact .inl (List.mem_singleton.mp hb)
      · rcases ih hl with heq | ⟨g'', hg, hb⟩
        · exact .inl heq
        · exact .inr ⟨g'', List.mem_cons_of_mem g hg, hb⟩

/-- An id is of hexadecimal digits, hyphens and a `p`. -/
theorem projectID_bytes {id : GoString} (h : projectID id = true) :
    id ≠ [] ∧ ∀ b ∈ id, hexDigit b = true ∨ b = 0x2D ∨ b = 0x70 := by
  rw [projectID, Bool.or_eq_true, Bool.and_eq_true, Bool.and_eq_true, Bool.and_eq_true] at h
  rcases h with ⟨hlens, hhex⟩ | ⟨⟨hpre, hlen⟩, hhex⟩
  · refine ⟨?_, fun b hb => ?_⟩
    · rintro rfl
      exact absurd hlens (by decide)
    · have hjoin : [0x2D].intercalate (id.splitOn 0x2D) = id := List.intercalate_splitOn 0x2D
      rw [← hjoin] at hb
      rcases mem_intercalate hb with heq | ⟨g, hg, hb⟩
      · exact .inr (.inl heq)
      · exact .inl (List.all_eq_true.mp (List.all_eq_true.mp hhex g hg) b hb)
  · obtain ⟨rest, rfl⟩ := hasPrefix_iff.mp hpre
    refine ⟨by simp [ascii], fun b hb => ?_⟩
    rcases List.mem_append.mp hb with hb | hb
    · have hp : ascii "p-" = [0x70, 0x2D] := by decide
      rw [hp, List.mem_cons, List.mem_singleton] at hb
      exact .inr hb.symm
    · have hdrop : (ascii "p-" ++ rest).drop 2 = rest := rfl
      rw [hdrop] at hhex
      exact .inl (List.all_eq_true.mp hhex b hb)

/-- A word with another letter in it is not the first of the path. -/
theorem not_startsWith {id word : GoString} (hid : projectID id = true) (hword : slash ∉ word)
    {b : UInt8} (hb : b ∈ word) (hother : ¬ (hexDigit b = true ∨ b = 0x2D ∨ b = 0x70))
    (rest : GoString) : startsWith (id ++ slash :: rest) word = false := by
  have hbytes := (projectID_bytes hid).2
  have hslash : slash ∉ id := by
    intro h
    rcases hbytes slash h with h | h | h
    · exact absurd h (by decide)
    · cases h
    · cases h
  refine Bool.eq_false_iff.mpr fun h => ?_
  rw [startsWith, Bool.or_eq_true, decide_eq_true_eq, hasPrefix_iff] at h
  rcases h with h | ⟨t, h⟩
  · exact hword (h ▸ List.mem_append_right _ (List.mem_cons_self ..))
  · rw [List.append_assoc, List.singleton_append] at h
    have hhead := (headSeg_append hword t).1
    rw [h, (headSeg_append hslash rest).1] at hhead
    exact hother (hbytes b (hhead ▸ hb))

section

variable {id inner : GoString}

/-- **Behind the project** is a path that is read back. -/
theorem parsePath_hub (hid : projectID id = true) (hvalid : validUTF8 inner = true)
    (hne : inner ≠ []) (hlast : inner.getLast? ≠ some slash) :
    parsePath (slash :: id ++ slash :: encodePath inner) .hub =
      projectRoute { project := some id, path := inner } := by
  obtain ⟨hnil, hbytes⟩ := projectID_bytes hid
  have hslash : slash ∉ id := by
    intro h
    rcases hbytes slash h with h | h | h
    · exact absurd h (by decide)
    · cases h
    · cases h
  have hraw : (slash :: id ++ slash :: encodePath inner).dropWhile (fun b => b = slash) =
      id ++ slash :: encodePath inner := by
    obtain ⟨b, id, rfl⟩ := List.exists_cons_of_ne_nil hnil
    have hb : b ≠ slash := fun h => hslash (h ▸ List.mem_cons_self ..)
    rw [List.cons_append, List.dropWhile_cons_of_pos (by simp), List.cons_append,
      List.dropWhile_cons_of_neg (by simpa using hb)]
  have horgs := @not_startsWith id (ascii "orgs") hid (by decide) 0x6F (by decide)
    (by decide) (encodePath inner)
  have hbilling := @not_startsWith id (ascii "billing") hid (by decide) 0x69 (by decide)
    (by decide) (encodePath inner)
  have hconnections := @not_startsWith id (ascii "connections") hid (by decide) 0x6F
    (by decide) (by decide) (encodePath inner)
  obtain ⟨hhead, hafter⟩ := headSeg_append hslash (encodePath inner)
  have hmem : slash ∈ id ++ slash :: encodePath inner :=
    List.mem_append_right _ (List.mem_cons_self ..)
  have hpath : withPath { project := some id } (encodePath inner) =
      { project := some id, path := inner } := by
    rw [withPath, trimEnd_of_last (getLast?_encodePath hlast), if_neg (not_not_intro rfl),
      if_pos (encodePath_eq_nil_iff.not.mpr hne), decodePath_encodePath hvalid]
  rw [parsePath, hraw, horgs, hbilling, hconnections, if_neg Bool.false_ne_true,
    if_neg Bool.false_ne_true, if_neg Bool.false_ne_true, if_neg (not_not_intro hmem), hhead, hafter, hpath]

theorem parsePath_volume (hvalid : validUTF8 inner = true) (hne : inner ≠ [])
    (hfirst : inner.head? ≠ some slash) (hlast : inner.getLast? ≠ some slash) :
    parsePath (slash :: encodePath inner) .volume = takeEdit { path := inner } := by
  have hraw : (slash :: encodePath inner).dropWhile (fun b => b = slash) = encodePath inner := by
    rw [List.dropWhile_cons_of_pos (by simp), encodePath_eq]
    obtain ⟨b, inner, rfl⟩ := List.exists_cons_of_ne_nil hne
    have hb : b ≠ slash := fun h => hfirst (by rw [h]; rfl)
    rw [percentEncode, List.flatMap_cons]
    rcases @percentByte_cases pathKeep b with ⟨-, heq⟩ | heq
    · rw [heq, List.singleton_append, List.dropWhile_cons_of_neg (by simpa using hb)]
    · rw [heq, List.cons_append, List.dropWhile_cons_of_neg (by decide)]
  rw [parsePath, hraw, withPath, trimEnd_of_last (getLast?_encodePath hlast),
    if_neg (not_not_intro rfl), if_pos (encodePath_eq_nil_iff.not.mpr hne), decodePath_encodePath hvalid]

end

/-- A safe path neither begins nor ends with a slash. -/
theorem ends_of_safePath {p : GoString} (h : safePath p = true) :
    p ≠ [] ∧ p.head? ≠ some slash ∧ p.getLast? ≠ some slash := by
  have hplain := (safePath_iff.mp h).1
  refine ⟨?_, ?_, ?_⟩
  · rintro rfl
    exact (hplain [] (by simp)).1 rfl
  · intro hhead
    obtain ⟨t, rfl⟩ := List.head?_eq_some_iff.mp hhead
    have hsegs := head_segments [] t (by simp)
    rw [List.nil_append] at hsegs
    exact (hplain [] (by rw [hsegs]; exact List.mem_cons_self ..)).1 rfl
  · intro hlast
    obtain ⟨t, rfl⟩ := List.getLast?_eq_some_iff.mp hlast
    have hsegs := segments_append t []
    exact (hplain [] (by rw [hsegs]; simp)).1 rfl

/-! ### Files -/

theorem takeEdit_edit {r : Route} {path : GoString} (hpath : r.path = ascii "edit" ++ slash :: path)
    (hlast : path.getLast? ≠ some slash) : takeEdit r = { r with editing := true, path } := by
  have hhead := (@headSeg_append (ascii "edit") (by decide) path).1
  have hdrop : (ascii "edit" ++ slash :: path).drop (ascii "edit/").length = path := rfl
  rw [takeEdit, hpath, hhead, if_neg (not_not_intro rfl), hdrop, trimEnd_of_last hlast]

theorem projectRoute_plain {r : Route} (h : headSeg r.path ∉ Mode.hub.reserved) :
    projectRoute r = r := by
  simp only [Mode.reserved, List.mem_cons, List.not_mem_nil, or_false, not_or] at h
  obtain ⟨hedit, hinsights, hactivity, hinstall, hsettings, hdashboard, hhistory⟩ := h
  have hlegacy : Router.legacyView (headSeg r.path) = none := by
    rw [Router.legacyView, if_neg hdashboard, if_neg hhistory]
  have hsegment : segmentView (headSeg r.path) = none := by
    rw [segmentView, if_neg hinsights, if_neg hactivity, if_neg hinstall, if_neg hsettings]
  rw [projectRoute]
  dsimp only
  rw [if_neg hedit, hlegacy, hsegment]
  rfl

/-- The path behind the project, of a file. -/
def fileInner (path : GoString) (editing : Bool) : GoString :=
  if editing then ascii "edit" ++ slash :: path else path

theorem encodePath_fileInner {path : GoString} (hne : path ≠ []) (editing : Bool) :
    (if encodePath path ≠ [] ∧ editing = true then ascii "edit/" ++ encodePath path
      else encodePath path) = encodePath (fileInner path editing) := by
  cases editing with
  | false =>
    rw [if_neg fun h => Bool.false_ne_true h.2]
    rfl
  | true =>
    have hword := @encodePath_slash (ascii "edit") (by decide +kernel) path
    rw [if_pos ⟨encodePath_eq_nil_iff.not.mpr hne, rfl⟩, fileInner, if_pos rfl, hword]
    rfl

theorem filePairs_params (version : Option GoString) (full : Bool) :
    getParam (filePairs version full) (ascii "v") = version ∧
      (getParam (filePairs version full) (ascii "full")).isSome = full ∧
      ∀ name, name ≠ ascii "v" → name ≠ ascii "full" →
        getParam (filePairs version full) name = none := by
  have hfull (name : GoString) (h : name ≠ ascii "full") :
      getParam (if full then [(ascii "full", ascii "1")] else []) name = none := by
    split_ifs
    · rw [getParam_cons, if_neg (Ne.symm h)]
      rfl
    · rfl
  rw [filePairs]
  cases version with
  | none =>
    refine ⟨hfull _ (by decide), ?_, fun name _ h => hfull name h⟩
    cases full <;> rfl
  | some v =>
    have hcons (l : List (GoString × GoString)) :
        (some v).toList.map (fun v => (ascii "v", v)) ++ l = (ascii "v", v) :: l := rfl
    rw [hcons]
    refine ⟨?_, ?_, fun name hv h => ?_⟩
    · rw [getParam_cons, if_pos rfl]
    · have hne : ascii "v" ≠ ascii "full" := by decide
      rw [getParam_cons, if_neg hne]
      cases full <;> rfl
    · rw [getParam_cons, if_neg (Ne.symm hv), hfull name h]

theorem validUTF8_of_blobSum {v : GoString} (h : blobSum v = true) : validUTF8 v = true := by
  rw [blobSum, Bool.and_eq_true, List.all_eq_true] at h
  refine validUTF8_of_ascii fun b hb => ?_
  have hhex := h.2 b hb
  simp only [hexDigit, Bool.or_eq_true, Bool.and_eq_true, decide_eq_true_eq] at hhex
  rcases hhex with ⟨-, h⟩ | ⟨-, h⟩
  · exact lt_of_le_of_lt h (by decide)
  · exact lt_of_le_of_lt h (by decide)

theorem filePairs_valid {version : Option GoString} (h : ∀ v ∈ version, blobSum v = true)
    (full : Bool) :
    ∀ pair ∈ filePairs version full, validUTF8 pair.1 = true ∧ validUTF8 pair.2 = true := by
  intro pair hpair
  rcases List.mem_append.mp hpair with hpair | hpair
  · obtain ⟨v, hv, rfl⟩ := List.mem_map.mp hpair
    have hname : validUTF8 (ascii "v") = true := by decide
    exact ⟨hname, validUTF8_of_blobSum (h v (Option.mem_toList.mp hv))⟩
  · split_ifs at hpair
    · rw [List.mem_singleton.mp hpair]
      exact ⟨by decide, by decide⟩
    · cases hpair

/-! ### Pages -/

theorem truthy_truthy (s : Option GoString) : truthy (truthy s) = truthy s := by
  rw [truthy, truthy, Option.filter_filter]
  simp

theorem hasHistoryFilters_truthy (f : HistoryFilters) :
    hasHistoryFilters (fun k => truthy (f k)) = hasHistoryFilters f := by
  simp only [hasHistoryFilters, truthy_truthy]

theorem setFilters_truthy (f : HistoryFilters) :
    setFilters (fun k => truthy (f k)) = setFilters f := by
  have hset : (fun k => truthy (truthy (f k))) = fun k => truthy (f k) :=
    funext fun k => truthy_truthy (f k)
  rw [setFilters, setFilters, hasHistoryFilters_truthy, hset]

/-- A query string without a target changes nothing. -/
theorem withQueryTarget_eq_self (r : Route) {q : List (GoString × GoString)}
    (hpath : getParam q (ascii "path") = none) (hpre : getParam q (ascii "prefix") = none) :
    withQueryTarget r q = r := by
  have hempty : trimSlashes (((truthy (none : Option GoString)).or (truthy none)).getD []) = [] :=
    rfl
  rw [withQueryTarget, hpath, hpre, hempty]
  split_ifs
  · rfl
  · rfl

/-- An address is read as its path, and the query string apart from it. -/
theorem parseRoute_append {path : GoString} (hpath : 0x3F ∉ path)
    {pairs : List (GoString × GoString)}
    (h : ∀ pair ∈ pairs, validUTF8 pair.1 = true ∧ validUTF8 pair.2 = true) (mode : Mode) :
    parseRoute (path ++ queryText pairs) mode = withQueryTarget { parsePath path mode with
      version := truthy (getParam pairs (ascii "v"))
      connect := truthy (getParam pairs (ascii "connect"))
      full := (getParam pairs (ascii "full")).isSome
      comment := (getParam pairs (ascii "comment")).filter fun c => c.length = 12 && c.all hexDigit
      filters := setFilters fun k => getParam pairs k.name } pairs := by
  obtain ⟨hfront, hquery⟩ := split_url hpath h
  rw [parseRoute, hfront, hquery, hasHistoryFilters_truthy]
  rfl

theorem setFilters_none : setFilters (fun _ => none) = none := rfl

/-- What a file's query string adds to a route. -/
theorem parseRoute_file {path : GoString} (hpath : 0x3F ∉ path) {version : Option GoString}
    (hversion : ∀ v ∈ version, blobSum v = true) (full : Bool) (mode : Mode) :
    parseRoute (path ++ queryText (filePairs version full)) mode =
      { parsePath path mode with
        version, connect := none, full, comment := none, filters := none } := by
  obtain ⟨hv, hfull, hother⟩ := filePairs_params version full
  have htruthy : truthy version = version := by
    cases version with
    | none => rfl
    | some v =>
      have hne : v ≠ [] := by
        rintro rfl
        exact absurd (hversion [] rfl) (by decide)
      rw [truthy, Option.filter_some, if_pos (by simpa using hne)]
  have hfilters : (fun k : HistoryKey => getParam (filePairs version full) k.name) =
      fun _ => none := by
    funext k
    cases k <;> exact hother _ (by decide) (by decide)
  rw [parseRoute_append hpath (filePairs_valid hversion full), hv, hfull, htruthy, hfilters,
    setFilters_none, hother (ascii "connect") (by decide) (by decide),
    hother (ascii "comment") (by decide) (by decide),
    withQueryTarget_eq_self _ (hother _ (by decide) (by decide)) (hother _ (by decide) (by decide))]
  rfl

theorem notMem_projectID {id : GoString} (hid : projectID id = true) : 0x3F ∉ id := by
  intro h
  rcases (projectID_bytes hid).2 _ h with h | h | h
  · exact absurd h (by decide)
  · cases h
  · cases h

/-- The address of a file, as its path and its query string. -/
theorem urlForPath_eq {path : GoString} (hne : path ≠ []) {project version : Option GoString}
    (hproject : ∀ id ∈ project, projectID id = true) (hversion : ∀ v ∈ version, blobSum v = true)
    (full editing : Bool) :
    urlForPath path project version full editing =
      project.elim [] (fun id => slash :: id) ++ slash :: encodePath (fileInner path editing) ++
        queryText (filePairs version full) := by
  have htruthy {s : Option GoString} (h : ∀ t ∈ s, t ≠ []) : truthy s = s := by
    cases s with
    | none => rfl
    | some t => rw [truthy, Option.filter_some, if_pos (by simpa using h t rfl)]
  have hv : truthy version = version := htruthy fun v hv => by
    rintro rfl
    exact absurd (hversion [] hv) (by decide)
  have hp : truthy project = project := htruthy fun id hid => (projectID_bytes (hproject id hid)).1
  have hinner : fileInner path editing ≠ [] := by
    rw [fileInner]
    split_ifs
    · exact List.append_ne_nil_of_right_ne_nil _ nofun
    · exact hne
  rw [urlForPath, encodePath_fileInner hne, hv, hp, fileQuery_eq hversion]
  cases project with
  | none => rfl
  | some id =>
    dsimp only
    rw [if_pos (encodePath_eq_nil_iff.not.mpr hinner)]
    rfl

/-- **The address of a file opens that file.** -/
theorem parseRoute_urlForPath {path : GoString} {project version : Option GoString}
    {full editing : Bool} (h : (Page.file project path version full editing).Proper) :
    parseRoute (urlForPath path project version full editing)
        (Page.file project path version full editing).mode =
      { project, path, version, full, editing } := by
  obtain ⟨hproject, hsafe, hvalid, hversion, hreserved⟩ := h
  obtain ⟨hne, hfirst, hlast⟩ := ends_of_safePath hsafe
  have hword : validUTF8 (ascii "edit") = true := by decide
  have hinner : validUTF8 (fileInner path editing) = true ∧ fileInner path editing ≠ [] ∧
      (fileInner path editing).head? ≠ some slash ∧
      (fileInner path editing).getLast? ≠ some slash := by
    rw [fileInner]
    split_ifs
    · refine ⟨validUTF8_slash_append hword hvalid, ?_, ?_, ?_⟩
      · exact List.append_ne_nil_of_right_ne_nil _ nofun
      · rw [List.head?_append_of_ne_nil _ (by decide)]
        decide
      · rw [List.getLast?_append_of_ne_nil _ (List.cons_ne_nil _ _),
          List.getLast?_cons_of_ne_nil hne]
        exact hlast
    · exact ⟨hvalid, hne, hfirst, hlast⟩
  obtain ⟨hivalid, hine, hifirst, hilast⟩ := hinner
  have hquestion : 0x3F ∉ slash :: encodePath (fileInner path editing) := by
    intro hmem
    rcases List.mem_cons.mp hmem with heq | hmem
    · cases heq
    · exact notMem_encodePath _ hmem
  rw [urlForPath_eq hne hproject hversion]
  cases project with
  | none =>
    have hroute : takeEdit { path := fileInner path editing } = { path, editing } := by
      cases editing with
      | true => exact takeEdit_edit rfl hlast
      | false =>
        have hhead : headSeg path ≠ ascii "edit" := by
          rcases hreserved with h | h
          · cases h
          · exact fun heq => h (by rw [if_pos rfl, heq]; exact List.mem_singleton_self _)
        exact if_pos hhead
    have hparse := (parsePath_volume hivalid hine hifirst hilast).trans hroute
    have hmode : (Page.file none path version full editing).mode = .volume := rfl
    rw [Option.elim_none, List.nil_append, hmode, parseRoute_file hquestion hversion full, hparse]
  | some id =>
    have hid := hproject id rfl
    have hroute : projectRoute { project := some id, path := fileInner path editing } =
        { project := some id, path, editing } := by
      cases editing with
      | true =>
        have hhead := (@headSeg_append (ascii "edit") (by decide) path).1
        rw [projectRoute]
        dsimp only
        rw [fileInner, if_pos rfl, if_pos hhead]
        exact takeEdit_edit rfl hlast
      | false =>
        refine projectRoute_plain ?_
        rcases hreserved with h | h
        · cases h
        · exact h
    have hparse := (parsePath_hub hid hivalid hine hilast).trans hroute
    have hid' : 0x3F ∉ slash :: id ++ slash :: encodePath (fileInner path editing) := by
      intro hmem
      rcases List.mem_append.mp hmem with hmem | hmem
      · rcases List.mem_cons.mp hmem with heq | hmem
        · cases heq
        · exact notMem_projectID hid hmem
      · exact hquestion hmem
    have hmode : (Page.file (some id) path version full editing).mode = .hub := rfl
    rw [Option.elim_some, hmode, parseRoute_file hid' hversion full, hparse]

/-! ### Views -/

theorem validUTF8_trimEnd {s : GoString} (h : validUTF8 s = true) :
    validUTF8 (trimEnd s) = true := by
  induction s using List.reverseRecOn with
  | nil => rfl
  | append_singleton s b ih =>
    rw [trimEnd]
    by_cases hb : b = slash
    · subst hb
      rw [List.rdropWhile_concat_pos _ _ _ (by simp)]
      exact ih (validUTF8_append_slash h).1
    · rw [List.rdropWhile_concat_neg _ _ _ (by simpa using hb)]
      exact h

theorem segment_spec (name : ViewName) :
    segmentView name.segment = some name ∧ Router.legacyView name.segment = none ∧
      name.segment ≠ ascii "edit" ∧ slash ∉ name.segment ∧ name.segment ≠ [] ∧
      validUTF8 name.segment = true ∧ (∀ b ∈ name.segment, uriKeep b = true) := by
  cases name
  all_goals decide +kernel

/-- The path behind the project, of a view. -/
def viewInner (name : ViewName) (target : GoString) : GoString :=
  name.segment ++ if target ≠ [] then slash :: trimEnd target else []

theorem projectRoute_view {name : ViewName} {target : GoString} (id : GoString) :
    projectRoute { project := some id, path := viewInner name target } =
      { project := some id, view := some name, viewTarget := some (trimEnd target) } := by
  obtain ⟨hsegment, hlegacy, hedit, hslash, -⟩ := segment_spec name
  have hself : trimEnd (trimEnd target) = trimEnd target := List.rdropWhile_idempotent _ _
  rw [projectRoute]
  dsimp only
  by_cases hnil : target = []
  · have hinner : viewInner name target = name.segment := by
      rw [viewInner, if_neg (not_not_intro hnil), List.append_nil]
    have hhead : headSeg name.segment = name.segment :=
      List.takeWhile_eq_self_iff.mpr fun b hb => decide_eq_true fun heq => hslash (heq ▸ hb)
    rw [hinner, hhead, if_neg hedit, hsegment, hlegacy, if_neg hslash, hnil]
    rfl
  · have hinner : viewInner name target = name.segment ++ slash :: trimEnd target := by
      rw [viewInner, if_pos hnil]
    obtain ⟨hhead, hafter⟩ := headSeg_append hslash (trimEnd target)
    have hmem : slash ∈ name.segment ++ slash :: trimEnd target :=
      List.mem_append_right _ (List.mem_cons_self ..)
    rw [hinner, hhead, if_neg hedit, hsegment, hlegacy, if_pos hmem, hafter, hself]
    rfl

/-- The address of a view, as its path and its query string. -/
theorem urlForView_eq {id : GoString} (hid : projectID id = true) (name : ViewName)
    (target : GoString) (filters : Option HistoryFilters) :
    urlForView name (some id) target filters =
      slash :: id ++ slash :: encodePath (viewInner name target) ++
        queryText (if name = .history then filters.elim [] filterPairs else []) := by
  obtain ⟨-, -, -, -, -, -, hkeep⟩ := segment_spec name
  have hpath : encodePath (viewInner name target) =
      name.segment ++ if target ≠ [] then slash :: encodePath (trimEnd target) else [] := by
    rw [viewInner]
    split_ifs with hnil
    · exact encodePath_slash hkeep _
    · rw [List.append_nil, encodePath_eq]
      exact percentEncode_eq_self fun b hb => by rw [pathKeep, hkeep b hb, Bool.true_or]
  have hid' : truthy (some id) = some id := by
    rw [truthy, Option.filter_some, if_pos (by simpa using (projectID_bytes hid).1)]
  have hquery : (if name = .history then historyFilterQuery filters else []) =
      queryText (if name = .history then filters.elim [] filterPairs else []) := by
    split_ifs
    · cases filters with
      | none => rfl
      | some f => rfl
    · rfl
  rw [urlForView, hid', hquery, hpath, Option.elim_some]
  simp only [List.cons_append, List.append_assoc]

/-- The filters that are set are those in the query string. -/
theorem filters_read (f : HistoryFilters) :
    (fun k : HistoryKey => getParam (filterPairs f) k.name) = (fun k => truthy (f k)) ∧
      ∀ name, (∀ k : HistoryKey, k.name ≠ name) → getParam (filterPairs f) name = none := by
  have hnodup : historyKeys.Nodup := by decide
  constructor
  · funext k
    rw [filterPairs, getParam_filters f hnodup]
    cases k <;> rfl
  · intro name hname
    have hnone : historyKeys.find? (fun k => k.name = name) = none :=
      List.find?_eq_none.mpr fun k _ heq => hname k (of_decide_eq_true heq)
    rw [filterPairs, getParam_filters f hnodup, hnone]
    rfl

/-- What the query string of a view says. -/
theorem viewPairs_read (name : ViewName) (filters : Option HistoryFilters) :
    setFilters (fun k => getParam
        (if name = .history then filters.elim [] filterPairs else []) k.name) =
      (if name = .history then filters.bind setFilters else none) ∧
      ∀ other, (∀ k : HistoryKey, k.name ≠ other) →
        getParam (if name = .history then filters.elim [] filterPairs else []) other = none := by
  split_ifs
  · cases filters with
    | none => exact ⟨rfl, fun _ _ => rfl⟩
    | some f =>
      obtain ⟨hset, hother⟩ := filters_read f
      refine ⟨?_, hother⟩
      rw [Option.elim_some, Option.bind_some, hset, setFilters_truthy]
  · exact ⟨rfl, fun _ _ => rfl⟩

/-- **The address of a view opens that view.** -/
theorem parseRoute_urlForView {id target : GoString} {name : ViewName}
    {filters : Option HistoryFilters} (h : (Page.view id name target filters).Proper) :
    parseRoute (urlForView name (some id) target filters) .hub =
      (Page.view id name target filters).route := by
  obtain ⟨hid, hvalid, htarget, hfilters⟩ := h
  obtain ⟨-, -, -, hslash, hne, hword, -⟩ := segment_spec name
  have hinner : validUTF8 (viewInner name target) = true ∧ viewInner name target ≠ [] ∧
      (viewInner name target).getLast? ≠ some slash := by
    rw [viewInner]
    split_ifs with hnil
    · have htrim : trimEnd target ≠ [] := htarget.resolve_left hnil
      refine ⟨validUTF8_slash_append hword (validUTF8_trimEnd hvalid),
        List.append_ne_nil_of_left_ne_nil hne _, ?_⟩
      rw [List.getLast?_append_of_ne_nil _ (List.cons_ne_nil _ _),
        List.getLast?_cons_of_ne_nil htrim, List.getLast?_eq_getLast_of_ne_nil htrim]
      intro heq
      exact List.rdropWhile_last_not _ _ htrim (decide_eq_true (Option.some.inj heq))
    · rw [List.append_nil]
      exact ⟨hword, hne, fun h => hslash (List.mem_of_getLast? h)⟩
  obtain ⟨hivalid, hine, hilast⟩ := hinner
  have hquestion : 0x3F ∉ slash :: id ++ slash :: encodePath (viewInner name target) := by
    intro hmem
    rcases List.mem_append.mp hmem with hmem | hmem
    · rcases List.mem_cons.mp hmem with heq | hmem
      · cases heq
      · exact notMem_projectID hid hmem
    · rcases List.mem_cons.mp hmem with heq | hmem
      · cases heq
      · exact notMem_encodePath _ hmem
  have hpairs : ∀ pair ∈ (if name = .history then filters.elim [] filterPairs else []),
      validUTF8 pair.1 = true ∧ validUTF8 pair.2 = true := by
    intro pair hpair
    split_ifs at hpair
    · cases filters with
      | none => cases hpair
      | some f =>
        obtain ⟨k, -, hk⟩ := List.mem_filterMap.mp hpair
        obtain ⟨v, hv, rfl⟩ := Option.map_eq_some_iff.mp hk
        have hname : validUTF8 k.name = true := by cases k <;> decide
        exact ⟨hname, hfilters f rfl k v (Option.filter_eq_some_iff.mp hv).1⟩
    · cases hpair
  obtain ⟨hset, hother⟩ := viewPairs_read name filters
  have hnone (other : GoString) (h : ∀ k : HistoryKey, k.name ≠ other) := hother other h
  rw [urlForView_eq hid, parseRoute_append hquestion hpairs, hset,
    withQueryTarget_eq_self _ (hnone _ (by intro k; cases k <;> decide))
      (hnone _ (by intro k; cases k <;> decide)),
    hnone (ascii "v") (by intro k; cases k <;> decide),
    hnone (ascii "connect") (by intro k; cases k <;> decide),
    hnone (ascii "full") (by intro k; cases k <;> decide),
    hnone (ascii "comment") (by intro k; cases k <;> decide),
    parsePath_hub hid hivalid hine hilast, projectRoute_view]
  rfl

/-- **The address of a page opens that page**: of every file, and of every view with its target and
its filters. -/
theorem parseRoute_url {page : Page} (h : page.Proper) :
    parseRoute page.url page.mode = page.route := by
  cases page with
  | file project path version full editing => exact parseRoute_urlForPath h
  | view project name target filters => exact parseRoute_urlForView h

/-- A reserved word in front is read as a path while it is edited, and odd characters are read
back. -/
theorem parseRoute_url_edit :
    parseRoute (urlForPath (ascii "history/50%? #1.md") (some (ascii "p-0123abcd")) none true true)
        .hub =
      { project := some (ascii "p-0123abcd"), path := ascii "history/50%? #1.md"
        full := true, editing := true } :=
  @parseRoute_url
    (.file (some (ascii "p-0123abcd")) (ascii "history/50%? #1.md") none true true)
    ⟨by decide +kernel, by decide +kernel, by decide +kernel, nofun, .inl rfl⟩

/-- The target of a folder loses its slash, and a volume has no views. -/
theorem view_target_trimmed :
    (parseRoute (urlForView .history (some (ascii "p-0123abcd")) (ascii "docs/") none)
        .hub).viewTarget ≠ some (ascii "docs/") ∧
      (parseRoute (urlForView .history none (ascii "docs") none) .volume).view ≠ some .history := by
  decide +kernel

end Beardrive.Router
