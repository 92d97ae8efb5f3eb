import Beardrive.Frontend.ConflictName
import Beardrive.Syncer.ConflictNames
import Beardrive.Webapp.Rooms
import Mathlib.Data.Bool.AllAny

/-!
# Three writers of one name

The engine, the rooms of the hub and the browser each write the name of a conflict copy, and the
browser reads it. The engine counts bytes and replaces runes, the browser counts code units and
replaces those, and the hub cuts nothing.

So what the hub writes is recognised as long as the name of the account has at most thirty-two
runes, and has a length that a filesystem takes as long as the two names leave room for it. The
engine and the browser differ in a rune beyond `U+FFFF`, for which one of them puts one hyphen and
the other two, and in a name that is cut, unless what is left of it is ASCII.

## Main definitions

* `roomCopyName` — the hub's name
* `CopiesKnown` — the copies of a path are recognised, short enough and named alike
* `CopyNamesFit` — what that takes of the names

## Main results

* `recognised_conflictName`, `recognised_browser` — the engine's and the browser's copies are
  recognised
* `recognised_roomCopyName_iff` — which of the hub's are
* `tags_eq_iff` — which devices have one tag
* `copiesKnown_iff` — when the three of a path are as they should be
-/

namespace Beardrive

/-! ### The hub's name -/

/-- `User`, as far as a copy is named after it. -/
structure Author where
  name : GoString := []
  email : GoString := []

/-- The name a copy is named after. -/
def Author.shown (who : Author) : GoString :=
  if who.name ≠ [] then who.name else if who.email ≠ [] then who.email else ascii "hub"

/-- A name of letters, digits and hyphens. -/
def safeName (s : GoString) : GoString :=
  (runes s).map fun r =>
    if (0x61 ≤ r ∧ r ≤ 0x7A) ∨ (0x41 ≤ r ∧ r ≤ 0x5A) ∨ (0x30 ≤ r ∧ r ≤ 0x39)
    then UInt8.ofNat r else 0x2D

/-- `conflictPath`, for an account and an instant. -/
def roomCopyName (path : GoString) (who : Author) (t : Time) : GoString :=
  conflictPath path (safeName who.shown) t.utcStamp

/-! ### Properties -/

/-- A copy is recognised: as one of the path when the name was not cut, of the device, at the
second. -/
def Recognised (copy path : List ℕ) (whole : Prop) (device : List ℕ) (t : Time) : Prop :=
  ∃ c, Browser.parseConflict copy = some c ∧ (whole → c.original = path) ∧ c.device = device ∧
    c.when = Browser.wholeSecond t

/-- **The copies of a path**, as the engine and the browser name them for a device and the hub for
an account, are recognised and short enough, and the engine's and the browser's are one text. -/
structure CopiesKnown (p d : GoString) (who : Author) (t : Time) : Prop where
  engine : Recognised (units (conflictName p d t)) (units p)
    ((splitDir p).2.length + (conflictSuffix d t).length ≤ 255)
    (((sanitize d).take 32).map UInt8.toNat) t
  engine_length : (splitDir (conflictName p d t)).2.length ≤ 255
  hub : Recognised (units (roomCopyName p who t)) (units p) True
    ((safeName who.shown).map UInt8.toNat) t
  hub_length : (splitDir (roomCopyName p who t)).2.length ≤ 255
  browser : Recognised (Browser.conflictName (units p) (units d) t.unixMilli) (units p)
    ((Browser.splitPath (units p)).2.length +
      (Browser.conflictSuffix (units d) t.unixMilli).length ≤ 255)
    ((Browser.sanitize (units d)).take 32) t
  browser_length : unitBytes
    (Browser.splitPath (Browser.conflictName (units p) (units d) t.unixMilli)).2 ≤ 255
  same : validUTF8 p = true → validUTF8 (conflictName p d t) = true ∧
    units (conflictName p d t) = Browser.conflictName (units p) (units d) t.unixMilli

/-- No rune among the first thirty-two is beyond `U+FFFF`; or there are thirty-two, and those behind
the first one that is are hyphens in a tag. -/
def OneTag (rs : List Rune) : Prop :=
  ∀ front r rest, rs.take 32 = front ++ r :: rest → 0x10000 ≤ (r : ℕ) →
    32 ≤ rs.length ∧ ∀ x ∈ rest, Browser.tagUnit x = true → x = 0x2D

/-- The account's name has at most thirty-two runes and leaves room for the file's. What a name may
take behind a device is room for all of the file's, or the part of it there is room for is ASCII.
And the device has one tag. -/
structure CopyNamesFit (p d : GoString) (who : Author) : Prop where
  account : (runes who.shown).length ≤ 32
  room : (splitDir p).2.length + (runes who.shown).length ≤ 221
  name : unitBytes (units (splitDir p).2) ≤ 221 - min 32 (units d).length ∨
    ∀ u ∈ (units (splitDir p).2).take (221 - min 32 (units d).length), u < 0x80
  device : validUTF8 p = true → OneTag (runes d)

/-! ### One tag -/

/-- What a tag has for a unit, or for a rune. -/
def tagOf (u : ℕ) : ℕ := if Browser.tagUnit u then u else 0x2D

theorem tagUnit_iff {u : ℕ} : Browser.tagUnit u = true ↔ (0x61 ≤ u ∧ u ≤ 0x7A) ∨
    (0x41 ≤ u ∧ u ≤ 0x5A) ∨ (0x30 ≤ u ∧ u ≤ 0x39) ∨ u = 0x2D ∨ u = 0x5F := by
  simp only [Browser.tagUnit, Browser.digitUnit, Bool.or_eq_true, Bool.and_eq_true,
    decide_eq_true_eq, beq_iff_eq]
  omega

theorem tagUnit_tagOf (u : ℕ) : Browser.tagUnit (tagOf u) = true := by
  rw [tagOf]
  split_ifs with h
  · exact h
  · rfl

theorem tagOf_of_le {u : ℕ} (h : 0x7B ≤ u) : tagOf u = 0x2D := by
  refine if_neg fun htag => ?_
  have := tagUnit_iff.mp htag
  omega

theorem map_sanitize (d : GoString) : (sanitize d).map UInt8.toNat = (runes d).map tagOf := by
  rw [sanitize, List.map_map]
  refine List.map_congr_left fun r _ => ?_
  have hiff := @tagUnit_iff r
  by_cases h : Browser.tagUnit r = true
  · have hsize : (r : ℕ) < UInt8.size := by
      have hcases := hiff.mp h
      have hlow : (r : ℕ) < 0x7B := by omega
      exact hlow.trans (by decide)
    rw [Function.comp_apply, if_pos (hiff.mp h), tagOf, if_pos h,
      UInt8.toNat_ofNat_of_lt' hsize]
  · rw [Function.comp_apply, if_neg (mt hiff.mpr h), tagOf, if_neg h]
    rfl

theorem sanitize_units (d : GoString) :
    Browser.sanitize (units d) = ((runes d).flatMap utf16).map tagOf := rfl

/-- What a rune beyond `U+FFFF` is replaced by. -/
theorem map_utf16 (r : ℕ) : (utf16 r).map tagOf =
    if r < 0x10000 then [tagOf r] else [0x2D, 0x2D] := by
  rw [utf16]
  split_ifs with h
  · rfl
  · rw [List.map_cons, List.map_singleton, tagOf_of_le (by omega), tagOf_of_le (by omega)]

/-- Behind a hyphen too many a tag is the same only if it is hyphens. -/
theorem take_map_eq_dashes_iff (n k : ℕ) (rs : List ℕ) :
    (rs.map tagOf).take n = (List.replicate (k + 1) 0x2D ++ (rs.flatMap utf16).map tagOf).take n ↔
      n ≤ rs.length ∧ ∀ x ∈ rs.take n, tagOf x = 0x2D := by
  induction n generalizing k rs with
  | zero => simp
  | succ n ih =>
    cases rs with
    | nil => simp [List.replicate_succ]
    | cons r rs =>
      rw [List.map_cons, List.take_succ_cons, List.take_succ_cons, List.forall_mem_cons,
        List.length_cons, Nat.succ_le_succ_iff, List.replicate_succ, List.cons_append,
        List.take_succ_cons, List.cons.injEq, List.flatMap_cons, List.map_append]
      by_cases hr : tagOf r = 0x2D
      · obtain ⟨j, hj⟩ : ∃ j, (utf16 r).map tagOf = List.replicate (j + 1) 0x2D := by
          rw [map_utf16, hr]
          split_ifs
          · exact ⟨0, rfl⟩
          · exact ⟨1, rfl⟩
        rw [hj, ← List.append_assoc, List.replicate_append_replicate, ← Nat.add_assoc, ih]
        simp only [hr, true_and]
      · simp only [hr, false_and, and_false]

/-- **Two ways to a tag.** They lead to one as long as what is behind the first rune beyond `U+FFFF`
is hyphens. -/
theorem take_map_eq_iff (n : ℕ) (rs : List ℕ) :
    (rs.map tagOf).take n = ((rs.flatMap utf16).map tagOf).take n ↔
      ∀ front r rest, rs.take n = front ++ r :: rest → 0x10000 ≤ r →
        n ≤ rs.length ∧ ∀ x ∈ rest, tagOf x = 0x2D := by
  induction rs generalizing n with
  | nil => simp
  | cons r rs ih =>
    cases n with
    | zero => simp
    | succ n =>
      rw [List.map_cons, List.take_succ_cons, List.take_succ_cons, List.flatMap_cons,
        List.map_append, map_utf16, List.length_cons, Nat.succ_le_succ_iff]
      by_cases hr : r < 0x10000
      · rw [if_pos hr, List.singleton_append, List.take_succ_cons, List.cons.injEq, ih]
        simp only [true_and]
        constructor
        · rintro h front x rest heq hx
          cases front with
          | nil =>
            rw [(List.cons.inj heq).1] at hr
            exact absurd hx (not_le.mpr hr)
          | cons y front => exact h front x rest (List.cons.inj heq).2 hx
        · intro h front x rest heq hx
          exact h (r :: front) x rest (congrArg (r :: ·) heq) hx
      · have hdash : tagOf r = 0x2D := tagOf_of_le (by omega)
        have hone := take_map_eq_dashes_iff n 0 rs
        rw [if_neg hr, hdash, List.cons_append, List.take_succ_cons, List.cons.injEq]
        simp only [true_and]
        refine hone.trans ⟨fun h front x rest heq _ => ⟨h.1, fun y hy => ?_⟩, fun h => ?_⟩
        · cases front with
          | nil =>
            rw [← (List.cons.inj heq).2] at hy
            exact h.2 y hy
          | cons z front =>
            refine h.2 y ?_
            rw [(List.cons.inj heq).2]
            exact List.mem_append_right front (List.mem_cons_of_mem x hy)
        · exact h [] r (rs.take n) rfl (not_lt.mp hr)

/-- **Which devices have one tag.** -/
theorem tags_eq_iff (d : GoString) :
    ((sanitize d).take 32).map UInt8.toNat = (Browser.sanitize (units d)).take 32 ↔
      OneTag (runes d) := by
  have hdash (x : ℕ) : tagOf x = 0x2D ↔ (Browser.tagUnit x = true → x = 0x2D) := by
    rw [tagOf]
    by_cases h : Browser.tagUnit x = true
    · rw [if_pos h]
      exact ⟨fun heq _ => heq, fun heq => heq h⟩
    · rw [if_neg h]
      exact iff_of_true rfl fun h' => absurd h' h
  rw [List.map_take, map_sanitize, sanitize_units, take_map_eq_iff, OneTag]
  simp only [hdash]

/-! ### The copies in the browser -/

theorem suffix_ascii {b : UInt8} (h : suffixByte b = true) : b < 0x80 :=
  (printable_of_suffixByte h).2.trans (by decide)

/-- The code units of a name that ends in the mark, a tag and a stamp. -/
theorem units_mark {tag : GoString} (htag : ∀ b ∈ tag, b < 0x80) (t : Time) (s : GoString) :
    units (s ++ (ascii ".bdrive-conflict-" ++ tag ++ ascii "-" ++ t.utcStamp)) =
      units s ++ (Browser.conflictMark ++
        (tag.map UInt8.toNat ++ 0x2D :: t.utcStamp.map UInt8.toNat)) := by
  have hascii : ∀ b ∈ ascii "bdrive-conflict-" ++ tag ++ ascii "-" ++ t.utcStamp, b < 0x80 := by
    intro b hb
    simp only [List.mem_append] at hb
    rcases hb with ((hb | hb) | hb) | hb
    · revert b
      exact List.all_iff_forall_prop.mp (by decide)
    · exact htag b hb
    · revert b
      exact List.all_iff_forall_prop.mp (by decide)
    · exact suffix_ascii (suffixByte_of_timeByte (timeByte_of_mem_utcStamp b hb))
  have hmark : s ++ (ascii ".bdrive-conflict-" ++ tag ++ ascii "-" ++ t.utcStamp) =
      s ++ 0x2E :: (ascii "bdrive-conflict-" ++ tag ++ ascii "-" ++ t.utcStamp) := rfl
  rw [hmark, units_append_ascii (by decide), units_of_ascii hascii]
  simp only [List.map_append, List.append_assoc]
  rfl

theorem sanitize_ascii (d : GoString) : ∀ b ∈ (sanitize d).take 32, b < 0x80 := fun b hb =>
  suffix_ascii (suffixByte_of_mem_sanitize b (List.mem_of_mem_take hb))

/-- The engine's name in the browser. -/
theorem units_conflictName (p d : GoString) (t : Time) :
    units (conflictName p d t) =
      units ((splitDir p).1 ++ (splitDir p).2.take (255 - (conflictSuffix d t).length)) ++
        (Browser.conflictMark ++ (((sanitize d).take 32).map UInt8.toNat ++
          0x2D :: t.utcStamp.map UInt8.toNat)) := by
  rw [← units_mark (sanitize_ascii d), conflictName, clip_eq_take, ← List.append_assoc,
    ← clip_eq_take (sanitize d)]
  rfl

/-- The engine's tags are those of the expression. -/
theorem all_tagUnit_sanitize (d : GoString) :
    (((sanitize d).take 32).map UInt8.toNat).all Browser.tagUnit = true := by
  rw [List.map_take, map_sanitize, List.all_eq_true]
  intro u hu
  obtain ⟨r, -, rfl⟩ := List.mem_map.mp (List.mem_of_mem_take hu)
  exact tagUnit_tagOf r

/-- **The engine's copies are recognised.** -/
theorem recognised_conflictName {t : Time} (ht : Browser.YearOfFour t) (p d : GoString) :
    Recognised (units (conflictName p d t)) (units p)
      ((splitDir p).2.length + (conflictSuffix d t).length ≤ 255)
      (((sanitize d).take 32).map UInt8.toNat) t := by
  have hlen : (((sanitize d).take 32).map UInt8.toNat).length ≤ 32 := by
    rw [List.length_map, List.length_take]
    exact min_le_left ..
  rw [units_conflictName]
  refine ⟨_, Browser.parseConflict_copy hlen (all_tagUnit_sanitize d) ht _, fun hwhole => ?_, rfl,
    rfl⟩
  have hfits : (splitDir p).2.length ≤ 255 - (conflictSuffix d t).length := by omega
  dsimp only
  rw [List.take_of_length_le hfits, (splitDir_append p).1]

theorem length_conflictSuffix {t : Time} (ht : Browser.YearOfFour t) (d : GoString) :
    (conflictSuffix d t).length = 34 + min 32 (runes d).length := by
  rw [conflictSuffix, clip_eq_take]
  simp only [List.length_append, List.length_take, Browser.length_utcStamp ht]
  rw [show (ascii ".bdrive-conflict-").length = 17 from rfl, show (ascii "-").length = 1 from rfl,
    show (sanitize d).length = (runes d).length from List.length_map ..]
  omega

/-- **The engine's copies are short enough.** -/
theorem length_conflictName_le {t : Time} (ht : Browser.YearOfFour t) (p d : GoString) :
    (splitDir (conflictName p d t)).2.length ≤ 255 := by
  have hsuffix := length_conflictSuffix ht d
  rw [conflictName_eq, splitDir_of_name p (slash_notMem_copyName (splitDir_append p).2 d t),
    copyName, clip_eq_take, List.length_append, List.length_take]
  omega

/-! ### The hub's copies -/

theorem length_safeName (s : GoString) : (safeName s).length = (runes s).length :=
  List.length_map ..

/-- A name of letters, digits and hyphens is one of the expression. -/
theorem tagUnit_safeName {s : GoString} {b : UInt8} (h : b ∈ safeName s) :
    Browser.tagUnit b.toNat = true ∧ b ≠ 0x2E ∧ b ≠ slash ∧ b < 0x80 := by
  obtain ⟨r, -, rfl⟩ := List.mem_map.mp h
  split_ifs with hr
  · have hlow : (r : ℕ) < 0x7B := by omega
    have hall : ∀ n : Fin 0x7B, ((0x61 ≤ n.1 ∧ n.1 ≤ 0x7A) ∨ (0x41 ≤ n.1 ∧ n.1 ≤ 0x5A) ∨
        (0x30 ≤ n.1 ∧ n.1 ≤ 0x39)) → Browser.tagUnit (UInt8.ofNat n.1).toNat = true ∧
          UInt8.ofNat n.1 ≠ 0x2E ∧ UInt8.ofNat n.1 ≠ slash ∧ UInt8.ofNat n.1 < 0x80 := by
      decide
    exact hall ⟨r, hlow⟩ hr
  · decide

/-- The hub's name in the browser. -/
theorem units_roomCopyName (p : GoString) (who : Author) (t : Time) :
    units (roomCopyName p who t) = units p ++ (Browser.conflictMark ++
      ((safeName who.shown).map UInt8.toNat ++ 0x2D :: t.utcStamp.map UInt8.toNat)) := by
  rw [← units_mark fun b hb => (tagUnit_safeName hb).2.2.2, roomCopyName, conflictPath]
  simp only [List.append_assoc]

/-- **Which of the hub's copies are recognised.** -/
theorem recognised_roomCopyName_iff {t : Time} (ht : Browser.YearOfFour t) (p : GoString)
    (who : Author) :
    Recognised (units (roomCopyName p who t)) (units p) True
      ((safeName who.shown).map UInt8.toNat) t ↔ (runes who.shown).length ≤ 32 := by
  have hlen : ((safeName who.shown).map UInt8.toNat).length = (runes who.shown).length := by
    rw [List.length_map, length_safeName]
  have hdot : 0x2E ∉ (safeName who.shown).map UInt8.toNat := by
    intro h
    obtain ⟨b, hb, heq⟩ := List.mem_map.mp h
    exact (tagUnit_safeName hb).2.1 (UInt8.toNat_inj.mp heq)
  rw [units_roomCopyName]
  constructor
  · rintro ⟨c, hc, -⟩
    by_contra hlong
    rw [Browser.parseConflict_tag (by omega) hdot ht] at hc
    cases hc
  · intro hshort
    have htag : ((safeName who.shown).map UInt8.toNat).all Browser.tagUnit = true := by
      rw [List.all_map, List.all_eq_true]
      exact fun b hb => (tagUnit_safeName hb).1
    exact ⟨_, Browser.parseConflict_copy (hlen.le.trans hshort) htag ht _, fun _ => rfl, rfl, rfl⟩

/-- **Which of them are short enough.** -/
theorem length_roomCopyName {t : Time} (ht : Browser.YearOfFour t) (p : GoString) (who : Author) :
    (splitDir (roomCopyName p who t)).2.length =
      (splitDir p).2.length + (runes who.shown).length + 34 := by
  obtain ⟨hp, hslash⟩ := splitDir_append p
  have hname : slash ∉ (splitDir p).2 ++ (ascii ".bdrive-conflict-" ++ safeName who.shown ++
      ascii "-" ++ t.utcStamp) := by
    simp only [List.mem_append]
    rintro (h | ((h | h) | h) | h)
    · exact hslash h
    · exact absurd h (by decide)
    · exact (tagUnit_safeName h).2.2.1 rfl
    · exact absurd h (by decide)
    · exact absurd (timeByte_of_mem_utcStamp slash h) (by decide)
  have hcopy : roomCopyName p who t = (splitDir p).1 ++ ((splitDir p).2 ++
      (ascii ".bdrive-conflict-" ++ safeName who.shown ++ ascii "-" ++ t.utcStamp)) := by
    rw [← List.append_assoc, hp, roomCopyName, conflictPath]
    simp only [List.append_assoc]
  rw [hcopy, splitDir_of_name p hname]
  simp only [List.length_append, length_safeName, Browser.length_utcStamp ht]
  rw [show (ascii ".bdrive-conflict-").length = 17 from rfl, show (ascii "-").length = 1 from rfl]
  omega

/-! ### The browser's copies -/

/-- **The browser's copies are recognised**, of whatever code units. -/
theorem recognised_browser {t : Time} (ht : Browser.YearOfFour t) (path device : List ℕ) :
    Recognised (Browser.conflictName path device t.unixMilli) path
      ((Browser.splitPath path).2.length +
        (Browser.conflictSuffix device t.unixMilli).length ≤ 255)
      ((Browser.sanitize device).take 32) t := by
  have hlen : ((Browser.sanitize device).take 32).length ≤ 32 := by
    rw [List.length_take]
    exact min_le_left ..
  rw [Browser.conflictName_eq ht]
  refine ⟨_, Browser.parseConflict_copy hlen (Browser.all_tagUnit_sanitize device) ht _,
    fun hwhole => ?_, rfl, rfl⟩
  have hfits : (Browser.splitPath path).2.length ≤
      255 - (Browser.conflictSuffix device t.unixMilli).length := by omega
  dsimp only
  rw [List.take_of_length_le hfits, (Browser.splitPath_append path).1]

/-- The directory of a path is that of its code units. -/
theorem splitPath_units (p : GoString) :
    Browser.splitPath (units p) = (units (splitDir p).1, units (splitDir p).2) := by
  obtain ⟨hp, hslash⟩ := splitDir_append p
  have hname : 0x2F ∉ units (splitDir p).2 := notMem_units (b := slash) (by decide) hslash
  nth_rewrite 1 [← hp]
  rcases splitDir_fst p with hdir | ⟨d, hdir⟩
  · rw [hdir, List.nil_append]
    exact Browser.splitPath_eq (.inl rfl) hname
  · have hunits : units (d ++ [slash]) = units d ++ [0x2F] := units_append_ascii (by decide) d []
    have hsplit : units (d ++ [slash] ++ (splitDir p).2) =
        units d ++ [0x2F] ++ units (splitDir p).2 := by
      rw [List.append_assoc, List.singleton_append, units_append_ascii (by decide),
        List.append_assoc]
      rfl
    rw [hdir, hsplit, hunits]
    exact Browser.splitPath_eq (.inr ⟨units d, rfl⟩) hname

/-! ### One name -/

/-- The parts of a path are texts. -/
theorem validUTF8_splitDir {p : GoString} (h : validUTF8 p = true) :
    validUTF8 (splitDir p).1 = true ∧ validUTF8 (splitDir p).2 = true := by
  obtain ⟨hp, -⟩ := splitDir_append p
  rw [← hp] at h
  rcases splitDir_fst p with hdir | ⟨d, hdir⟩
  · rw [hdir] at h ⊢
    exact ⟨rfl, h⟩
  · rw [hdir, List.append_assoc, List.singleton_append, validUTF8_append_ascii (by decide),
      Bool.and_eq_true] at h
    rw [hdir, validUTF8_append_ascii (by decide), Bool.and_eq_true]
    exact ⟨⟨h.1, rfl⟩, h.2⟩

/-- A directory's code units are written in front of a name's. -/
theorem units_dir_append (p name : GoString) :
    units ((splitDir p).1 ++ name) = units (splitDir p).1 ++ units name := by
  rcases splitDir_fst p with hdir | ⟨d, hdir⟩
  · rw [hdir]
    rfl
  · rw [hdir, List.append_assoc, List.singleton_append, units_append_ascii (by decide),
      units_append_ascii (by decide), List.append_assoc]
    rfl

theorem validUTF8_dir_append {p name : GoString} (hp : validUTF8 p = true)
    (hname : validUTF8 name = true) : validUTF8 ((splitDir p).1 ++ name) = true := by
  have hdir := (validUTF8_splitDir hp).1
  rcases splitDir_fst p with h | ⟨d, h⟩
  · rw [h]
    exact hname
  · rw [h, validUTF8_append_ascii (by decide), Bool.and_eq_true] at hdir
    rw [h, List.append_assoc, List.singleton_append, validUTF8_append_ascii (by decide), hdir.1,
      hname]
    rfl

/-- **A name is cut alike** where there is room for all of it, or what is left is ASCII. -/
theorem take_units {s : GoString} {n : ℕ} (hs : validUTF8 s = true)
    (h : unitBytes (units s) ≤ n ∨ ∀ u ∈ (units s).take n, u < 0x80) :
    validUTF8 (s.take n) = true ∧ units (s.take n) = (units s).take n := by
  rcases h with h | h
  · have hunits := length_le_unitBytes (units s)
    rw [unitBytes_units hs] at h hunits
    rw [List.take_of_length_le h, List.take_of_length_le (hunits.trans h)]
    exact ⟨hs, rfl⟩
  · have htake := take_of_ascii_units h
    have hascii : ∀ b ∈ s.take n, b < 0x80 := by
      intro b hb
      rw [← htake] at h
      exact UInt8.lt_iff_toNat_lt.mpr (h b.toNat (List.mem_map_of_mem hb))
    exact ⟨validUTF8_of_ascii hascii, by rw [units_of_ascii hascii, htake]⟩

/-- What is put behind a name is a text, and so is a text with it. -/
theorem validUTF8_append_conflictSuffix {s : GoString} (h : validUTF8 s = true) (d : GoString)
    (t : Time) : validUTF8 (s ++ conflictSuffix d t) = true := by
  have hascii : ∀ b ∈ ascii "bdrive-conflict-" ++ copyMark d t, b < 0x80 := fun b hb =>
    suffix_ascii (suffixByte_of_mem d t b (by
      rw [conflictSuffix_eq]
      exact List.mem_cons_of_mem _ hb))
  rw [conflictSuffix_eq, validUTF8_append_ascii (by decide), h, validUTF8_of_ascii hascii]
  rfl

/-- **The engine and the browser write one name** for a path that is cut alike exactly when the
device has one tag. -/
theorem conflictName_same_iff {t : Time} (ht : Browser.YearOfFour t) {p d : GoString}
    (hp : validUTF8 p = true)
    (hname : unitBytes (units (splitDir p).2) ≤ 221 - min 32 (units d).length ∨
      ∀ u ∈ (units (splitDir p).2).take (221 - min 32 (units d).length), u < 0x80) :
    (validUTF8 (conflictName p d t) = true ∧
      units (conflictName p d t) = Browser.conflictName (units p) (units d) t.unixMilli) ↔
        OneTag (runes d) := by
  rw [← tags_eq_iff]
  constructor
  · rintro ⟨-, hsame⟩
    -- what is read from one name is the tag of either
    obtain ⟨c, hc, -, hdevice, -⟩ := recognised_conflictName ht p d
    obtain ⟨c', hc', -, hdevice', -⟩ := recognised_browser ht (units p) (units d)
    rw [hsame, hc'] at hc
    rw [← hdevice, ← Option.some.inj hc, hdevice']
  · intro htag
    have hlen := congrArg List.length htag
    rw [List.length_map, List.length_take, List.length_take, sanitize, List.length_map,
      Browser.sanitize, List.length_map] at hlen
    have hroom : 255 - (conflictSuffix d t).length = 221 - min 32 (units d).length := by
      rw [length_conflictSuffix ht]
      omega
    have hroom' : 255 - (Browser.conflictSuffix (units d) t.unixMilli).length =
        221 - min 32 (units d).length := by
      rw [Browser.length_conflictSuffix ht]
      omega
    obtain ⟨hvalid, htake⟩ := take_units (validUTF8_splitDir hp).2 hname
    constructor
    · have hdir := validUTF8_dir_append hp hvalid
      rw [conflictName, clip_eq_take, hroom, ← List.append_assoc]
      exact validUTF8_append_conflictSuffix hdir d t
    · rw [units_conflictName, Browser.conflictName_eq ht, splitPath_units, hroom, hroom', htag,
        units_dir_append, htake]

/-! ### All three -/

/-- **The copies of a path are recognised, short enough and named alike exactly when** the account's
name has at most thirty-two runes and leaves room for the file's, the file's name fits or is ASCII
where it is cut, and the device has one tag. -/
theorem copiesKnown_iff {p d : GoString} {who : Author} {t : Time} (ht : Browser.YearOfFour t) :
    CopiesKnown p d who t ↔ CopyNamesFit p d who := by
  have hhub := recognised_roomCopyName_iff ht p who
  have hhubLength := length_roomCopyName ht p who
  have hbrowser := Browser.unitBytes_conflictName_iff ht (units p) (units d)
  rw [splitPath_units] at hbrowser
  constructor
  · intro h
    have haccount := hhub.mp h.hub
    have hname := hbrowser.mp h.browser_length
    refine ⟨haccount, ?_, hname, fun hp => (conflictName_same_iff ht hp hname).mp (h.same hp)⟩
    have hlength := h.hub_length
    omega
  · intro h
    have hlength : (splitDir (roomCopyName p who t)).2.length ≤ 255 := by
      have hroom := h.room
      omega
    exact ⟨recognised_conflictName ht p d, length_conflictName_le ht p d, hhub.mpr h.account,
      hlength, recognised_browser ht _ _, hbrowser.mpr h.name,
      fun hp => (conflictName_same_iff ht hp h.name).mpr (h.device hp)⟩

/-- The first of August of a year. -/
def august : Time := { year := 2026, month := 8 }

/-- A short name, a device and an account. -/
theorem copiesKnown_short :
    CopiesKnown (ascii "a.md") (ascii "Mac") ⟨ascii "Ann", []⟩ august := by
  have hlow : ∀ r ∈ (runes (ascii "Mac")).take 32, r < 0x10000 := by decide +kernel
  refine (copiesKnown_iff (by decide +kernel)).mpr
    ⟨by decide +kernel, by decide +kernel, .inl (by decide +kernel),
      fun _ front r rest heq hr => ?_⟩
  have hmem : r ∈ (runes (ascii "Mac")).take 32 := by
    rw [heq]
    exact List.mem_append_right front (List.mem_cons_self ..)
  exact absurd hr (not_le.mpr (hlow r hmem))

/-- **An account with a long name**: what its room parks beside a file is no copy to the
browser. -/
theorem longAccount_hidden : ¬ ∀ p d who t, Browser.YearOfFour t → CopiesKnown p d who t := by
  intro h
  have hhub := (h (ascii "a.md") (ascii "Mac") ⟨List.replicate 33 0x61, []⟩ august
    (by decide +kernel)).hub
  have hshort := (recognised_roomCopyName_iff (by decide +kernel) _ _).mp hhub
  exact absurd hshort (by decide +kernel)

end Beardrive
