import Beardrive.Lib.Decimal
import Beardrive.Lib.Metered
import Beardrive.Lib.Rows
import Mathlib.Data.Rat.Floor
import Mathlib.Tactic.FieldSimp
import Mathlib.Tactic.NormNum

/-!
# The rate limiter

Every key has a bucket of tokens that fills at a rate and holds a burst. A call takes a token, or is
refused. A key that has no bucket gets a full one. When there are more than ten thousand buckets,
those that have been idle long enough to be full again are dropped first.

How long that is, is a number of whole seconds: what the burst needs to come in, cut off. Where it
is cut off, a bucket is dropped a fraction of a second early, and the key gets back more than it had
regained.

The arithmetic is exact.

## Main definitions

* `RateLimiter`, `newRateLimiter`, `allow` — the limiter
* `NeverOvergrants` — it grants no more than it promises
* `overgrantRun` — the calls that get more out of a limiter that drops early

## Main results

* `allow_metered` — a limiter whose burst takes whole seconds is metered
* `grants_overgrantRun` — what the early drop hands out
* `neverOvergrants_iff` — which limiters keep the promise
-/

namespace Beardrive

/-- `DefaultShareRPM`. -/
def defaultShareRPM : ℤ := 120

/-- `tokenBucket`. Clock readings are in nanoseconds. -/
structure TokenBucket where
  tokens : ℚ
  last : ℤ
  deriving DecidableEq

/-- `rateLimiter`, less its lock and its clock. -/
structure RateLimiter where
  rate : ℚ
  burst : ℚ
  buckets : AList fun _ : GoString => TokenBucket

/-- `newRateLimiter`. -/
def newRateLimiter (rpm : ℤ) : RateLimiter :=
  let rpm := if rpm ≤ 0 then defaultShareRPM else rpm
  { rate := rpm / 60, burst := max (rpm / 4) 10, buckets := ∅ }

/-- `Sub` of two clock readings: a difference beyond 64 bits is the bound it is beyond. -/
def sinceReading (now last : ℤ) : ℤ := max (-2 ^ 63) (min (2 ^ 63 - 1) (now - last))

/-- `Seconds`. -/
def seconds (d : ℤ) : ℚ := d / 10 ^ 9

/-- `time.Duration(l.burst/l.rate) * time.Second`: whole seconds, the fraction cut off. -/
def RateLimiter.idle (l : RateLimiter) : ℤ := ⌊l.burst / l.rate⌋ * 10 ^ 9

/-- The buckets a call finds: more than ten thousand are looked through for idle ones. -/
def RateLimiter.evict (l : RateLimiter) (now : ℤ) : AList fun _ : GoString => TokenBucket :=
  if 10000 < l.buckets.entries.length then
    Rows.pick (fun _ b => if l.idle < sinceReading now b.last then none else some b) l.buckets
  else l.buckets

/-- The tokens a call finds in the bucket of its key. -/
def RateLimiter.refilled (l : RateLimiter) (now : ℤ) (key : GoString) : ℚ :=
  let b := ((l.evict now).lookup key).getD ⟨l.burst, now⟩
  min l.burst (b.tokens + seconds (sinceReading now b.last) * l.rate)

/-- `allow`. -/
def allow (l : RateLimiter) (now : ℤ) (key : GoString) : RateLimiter × Bool :=
  let tokens := l.refilled now key
  if tokens < 1 then ({ l with buckets := (l.evict now).insert key ⟨tokens, now⟩ }, false)
  else ({ l with buckets := (l.evict now).insert key ⟨tokens - 1, now⟩ }, true)

/-- A call of `allow` with the clock reading it takes. -/
structure AllowCall where
  now : ℤ
  key : GoString

/-- One call. -/
def allowStep (l : RateLimiter) (c : AllowCall) : RateLimiter × Bool := allow l c.now c.key

/-- The calls for a key in a stretch of time, in seconds. -/
def callsFor (key : GoString) (lo hi : ℚ) : AllowCall → Bool :=
  Metered.during (fun c => seconds c.now) (fun c => decide (c.key = key)) lo hi

/-- The limiter of a rate grants no more than its burst and what its rate brings in: to no key, in
no stretch of time, and whatever is called. -/
def NeverOvergrants (rpm : ℤ) : Prop :=
  ∀ (calls : List AllowCall) (key : GoString) (lo hi : ℚ),
    calls.Pairwise (fun c d => c.now ≤ d.now) → lo ≤ hi →
      (grants allowStep (callsFor key lo hi) (newRateLimiter rpm) calls : ℚ) ≤
        (newRateLimiter rpm).burst + (newRateLimiter rpm).rate * (hi - lo)

/-! ### What a bucket is worth -/

theorem seconds_le_iff {a b : ℤ} : seconds a ≤ seconds b ↔ a ≤ b := by
  rw [seconds, seconds, div_le_div_iff_of_pos_right (by norm_num), Int.cast_le]

/-- The time that counts between two readings. -/
theorem seconds_sinceReading {now last : ℤ} (h : last ≤ now) :
    seconds (sinceReading now last) = min (seconds (2 ^ 63 - 1)) (seconds now - seconds last) := by
  have hmax : sinceReading now last = min (2 ^ 63 - 1) (now - last) := by
    rw [sinceReading]
    omega
  have hsub : seconds now - seconds last = seconds (now - last) := by
    rw [seconds, seconds, seconds, ← sub_div, Int.cast_sub]
  rw [hmax, hsub]
  rcases le_total (2 ^ 63 - 1) (now - last) with hle | hle
  · rw [min_eq_left hle, min_eq_left (seconds_le_iff.mpr hle)]
  · rw [min_eq_right hle, min_eq_right (seconds_le_iff.mpr hle)]

/-- What a bucket holds at a time, in seconds. -/
def TokenBucket.worth (b : TokenBucket) (burst rate t : ℚ) : ℚ :=
  min burst (b.tokens + min (seconds (2 ^ 63 - 1)) (t - seconds b.last) * rate)

/-- What a key may take at a time: a key that has no bucket would get a full one. -/
def RateLimiter.balance (key : GoString) (l : RateLimiter) (t : ℚ) : ℚ :=
  match l.buckets.lookup key with
  | none => l.burst
  | some b => b.worth l.burst l.rate t

theorem RateLimiter.balance_of_none {key : GoString} {l : RateLimiter}
    (h : l.buckets.lookup key = none) (t : ℚ) : l.balance key t = l.burst := by
  rw [balance, h]

theorem RateLimiter.balance_of_some {key : GoString} {l : RateLimiter} {b : TokenBucket}
    (h : l.buckets.lookup key = some b) (t : ℚ) :
    l.balance key t = b.worth l.burst l.rate t := by
  rw [balance, h]

/-- The limiters there are at a time, of a burst and a rate. -/
structure RateLimiter.Fine (burst rate : ℚ) (l : RateLimiter) (t : ℚ) : Prop where
  burst_eq : l.burst = burst
  rate_eq : l.rate = rate
  bucket : ∀ {key b}, l.buckets.lookup key = some b →
    0 ≤ b.tokens ∧ b.tokens ≤ burst ∧ seconds b.last ≤ t

section

variable {burst rate : ℚ} {b : TokenBucket} {t t' : ℚ}

theorem TokenBucket.worth_nonneg (hburst : 0 ≤ burst) (hrate : 0 ≤ rate) (htokens : 0 ≤ b.tokens)
    (hlast : seconds b.last ≤ t) : 0 ≤ b.worth burst rate t := by
  have hmax : 0 ≤ seconds (2 ^ 63 - 1) := by
    rw [seconds]
    norm_num
  exact le_min hburst (add_nonneg htokens
    (mul_nonneg (le_min hmax (sub_nonneg.mpr hlast)) hrate))

/-- A bucket fills no faster than the rate. -/
theorem TokenBucket.worth_later (hrate : 0 ≤ rate) (h : t ≤ t') :
    b.worth burst rate t' ≤ b.worth burst rate t + rate * (t' - t) := by
  have hgain : 0 ≤ t' - t := sub_nonneg.mpr h
  have htime : min (seconds (2 ^ 63 - 1)) (t' - seconds b.last) ≤
      min (seconds (2 ^ 63 - 1)) (t - seconds b.last) + (t' - t) := by
    rcases le_total (seconds (2 ^ 63 - 1)) (t - seconds b.last) with hle | hle
    · rw [min_eq_left hle]
      exact (min_le_left _ _).trans (le_add_of_nonneg_right hgain)
    · rw [min_eq_right hle]
      exact (min_le_right _ _).trans (by linarith only)
  have hmul := mul_le_mul_of_nonneg_right htime hrate
  rw [worth, worth]
  rcases le_total burst (b.tokens + min (seconds (2 ^ 63 - 1)) (t - seconds b.last) * rate) with
    hle | hle
  · rw [min_eq_left hle]
    exact (min_le_left _ _).trans (le_add_of_nonneg_right (mul_nonneg hrate hgain))
  · rw [min_eq_right hle]
    exact (min_le_right _ _).trans (by linarith only [hmul])

/-- A bucket filled just now is worth its tokens. -/
theorem TokenBucket.worth_self (tokens : ℚ) (now : ℤ) (h : tokens ≤ burst) :
    (TokenBucket.mk tokens now).worth burst rate (seconds now) = tokens := by
  have hmax : 0 ≤ seconds (2 ^ 63 - 1) := by
    rw [seconds]
    norm_num
  rw [worth, sub_self, min_eq_right hmax, zero_mul, add_zero, min_eq_right h]

end

/-! ### A call -/

section

variable {l : RateLimiter} {now : ℤ} {burst rate t t' : ℚ}

/-- The burst comes in within the seconds a bucket has to be idle. -/
def RateLimiter.Whole (l : RateLimiter) : Prop := l.burst ≤ ⌊l.burst / l.rate⌋ * l.rate

theorem RateLimiter.lookup_evict (l : RateLimiter) (now : ℤ) (key : GoString) :
    (l.evict now).lookup key = l.buckets.lookup key ∨
      ∃ b, l.buckets.lookup key = some b ∧ l.idle < sinceReading now b.last ∧
        (l.evict now).lookup key = none := by
  rw [evict]
  split_ifs with hmany
  · rw [Rows.lookup_pick]
    cases hb : l.buckets.lookup key with
    | none => exact .inl rfl
    | some b =>
      rw [Option.bind_some]
      split_ifs with hidle
      · exact .inr ⟨b, rfl, hidle, rfl⟩
      · exact .inl rfl
  · exact .inl rfl

/-- When there are many buckets and all of them have been idle, all are dropped. -/
theorem RateLimiter.evict_eq_empty {l : RateLimiter} {now : ℤ}
    (hmany : 10000 < l.buckets.entries.length)
    (hidle : ∀ key b, l.buckets.lookup key = some b → l.idle < sinceReading now b.last) :
    l.evict now = ∅ := by
  rw [evict, if_pos hmany]
  refine AList.ext (List.filterMap_eq_nil_iff.mpr fun row hrow => ?_)
  have hb := hidle row.1 row.2 (AList.mem_lookup_iff.mpr hrow)
  rw [Rows.pickRow, if_pos hb]
  rfl

/-- A bucket that is dropped was full again. -/
theorem RateLimiter.Fine.full_of_idle (h : l.Fine burst rate (seconds now)) (hwhole : l.Whole)
    (hrate : 0 ≤ rate) {key : GoString} {b : TokenBucket} (hb : l.buckets.lookup key = some b)
    (hidle : l.idle < sinceReading now b.last) : b.worth burst rate (seconds now) = burst := by
  obtain ⟨htokens, -, hlast⟩ := h.bucket hb
  have hsecs : (⌊l.burst / l.rate⌋ : ℚ) ≤ seconds (sinceReading now b.last) := by
    have hcast : seconds l.idle = (⌊l.burst / l.rate⌋ : ℚ) := by
      rw [seconds, idle, Int.cast_mul]
      norm_num
    rw [← hcast]
    exact seconds_le_iff.mpr hidle.le
  rw [Whole, h.rate_eq, h.burst_eq] at hwhole
  rw [h.rate_eq, h.burst_eq] at hsecs
  rw [TokenBucket.worth, ← seconds_sinceReading (seconds_le_iff.mp hlast)]
  have hmul := mul_le_mul_of_nonneg_right hsecs hrate
  exact min_eq_left (by linarith only [htokens, hwhole, hmul])

/-- **Dropping buckets changes no balance**, where the burst comes in in whole seconds. -/
theorem RateLimiter.Fine.balance_evict (h : l.Fine burst rate (seconds now)) (hwhole : l.Whole)
    (hrate : 0 ≤ rate) (key : GoString) :
    RateLimiter.balance key { l with buckets := l.evict now } (seconds now) =
      l.balance key (seconds now) := by
  rcases l.lookup_evict now key with heq | ⟨b, hb, hidle, hnone⟩
  · rw [balance, balance]
    dsimp only
    rw [heq]
  · rw [balance_of_none (l := { l with buckets := l.evict now }) hnone, balance_of_some hb,
      h.rate_eq, h.burst_eq, h.full_of_idle hwhole hrate hb hidle]

/-- The tokens a call finds are the balance of its key. -/
theorem RateLimiter.Fine.refilled_eq (h : l.Fine burst rate (seconds now)) (key : GoString) : l.refilled now key =
      RateLimiter.balance key { l with buckets := l.evict now } (seconds now) := by
  rw [refilled]
  cases hb : (l.evict now).lookup key with
  | none =>
    have hself : sinceReading now now = 0 := by
      rw [sinceReading]
      omega
    rw [balance_of_none (l := { l with buckets := l.evict now }) hb, Option.getD_none]
    dsimp only
    rw [hself, seconds, Int.cast_zero, zero_div, zero_mul, add_zero, min_self]
  | some b =>
    have hlast : seconds b.last ≤ seconds now := by
      rcases l.lookup_evict now key with heq | ⟨b', -, -, hnone⟩
      · exact (h.bucket (heq ▸ hb)).2.2
      · rw [hnone] at hb
        cases hb
    rw [balance_of_some (l := { l with buckets := l.evict now }) hb, Option.getD_some,
      TokenBucket.worth, seconds_sinceReading (seconds_le_iff.mp hlast)]

/-- What a call leaves in the bucket of its key. -/
theorem allow_spec (l : RateLimiter) (now : ℤ) (key : GoString) :
    ∃ tokens, (allow l now key).1 =
        { l with buckets := (l.evict now).insert key ⟨tokens, now⟩ } ∧
      tokens + (if (allow l now key).2 then 1 else 0) = l.refilled now key ∧
      (0 ≤ l.refilled now key → 0 ≤ tokens) ∧ tokens ≤ l.refilled now key := by
  by_cases h : l.refilled now key < 1
  · have hrefused : allow l now key =
        ({ l with buckets := (l.evict now).insert key ⟨l.refilled now key, now⟩ }, false) :=
      if_pos h
    rw [hrefused]
    exact ⟨_, rfl, add_zero _, id, le_rfl⟩
  · have hgranted : allow l now key =
        ({ l with buckets := (l.evict now).insert key ⟨l.refilled now key - 1, now⟩ }, true) :=
      if_neg h
    rw [hgranted]
    refine ⟨_, rfl, sub_add_cancel _ _, fun _ => ?_, ?_⟩
    · linarith only [not_lt.mp h]
    · linarith only

end

/-! ### Runs -/

theorem RateLimiter.Fine.later {l : RateLimiter} {burst rate t t' : ℚ} (h : l.Fine burst rate t)
    (hle : t ≤ t') : l.Fine burst rate t' where
  burst_eq := h.burst_eq
  rate_eq := h.rate_eq
  bucket hb := ⟨(h.bucket hb).1, (h.bucket hb).2.1, (h.bucket hb).2.2.trans hle⟩

theorem RateLimiter.Fine.balance_le {l : RateLimiter} {burst rate t : ℚ} (h : l.Fine burst rate t)
    (key : GoString) : l.balance key t ≤ burst := by
  cases hb : l.buckets.lookup key with
  | none => rw [balance_of_none hb, h.burst_eq]
  | some b =>
    rw [balance_of_some hb, h.burst_eq]
    exact min_le_left _ _

theorem RateLimiter.Fine.balance_nonneg {l : RateLimiter} {burst rate t : ℚ}
    (h : l.Fine burst rate t) (hburst : 0 ≤ burst) (hrate : 0 ≤ rate) (key : GoString) :
    0 ≤ l.balance key t := by
  cases hb : l.buckets.lookup key with
  | none =>
    rw [balance_of_none hb, h.burst_eq]
    exact hburst
  | some b =>
    obtain ⟨htokens, -, hlast⟩ := h.bucket hb
    rw [balance_of_some hb, h.burst_eq, h.rate_eq]
    exact TokenBucket.worth_nonneg hburst hrate htokens hlast

theorem RateLimiter.Fine.balance_later {l : RateLimiter} {burst rate t t' : ℚ}
    (h : l.Fine burst rate t) (hrate : 0 ≤ rate) (hle : t ≤ t') (key : GoString) :
    l.balance key t' ≤ l.balance key t + rate * (t' - t) := by
  cases hb : l.buckets.lookup key with
  | none =>
    rw [balance_of_none hb, balance_of_none hb]
    exact le_add_of_nonneg_right (mul_nonneg hrate (sub_nonneg.mpr hle))
  | some b =>
    rw [balance_of_some hb, balance_of_some hb, h.burst_eq, h.rate_eq]
    exact TokenBucket.worth_later hrate hle

/-- The limiter behind a call is one of the time of the call. -/
theorem RateLimiter.Fine.allow {l : RateLimiter} {burst rate : ℚ} {now : ℤ}
    (h : l.Fine burst rate (seconds now)) (hburst : 0 ≤ burst) (hrate : 0 ≤ rate)
    (hwhole : l.Whole) (key : GoString) : (allow l now key).1.Fine burst rate (seconds now) := by
  obtain ⟨tokens, hstate, -, hnonneg, hle⟩ := allow_spec l now key
  rw [hstate]
  refine ⟨h.burst_eq, h.rate_eq, fun {k b} hb => ?_⟩
  dsimp only at hb
  by_cases hk : k = key
  · subst hk
    rw [AList.lookup_insert] at hb
    cases hb
    have hrefilled := (h.refilled_eq k).trans (h.balance_evict hwhole hrate k)
    rw [hrefilled] at hnonneg hle
    exact ⟨hnonneg (h.balance_nonneg hburst hrate k), hle.trans (h.balance_le k), le_rfl⟩
  · rw [AList.lookup_insert_ne hk] at hb
    rcases l.lookup_evict now k with heq | ⟨b', -, -, hnone⟩
    · exact h.bucket (heq ▸ hb)
    · rw [hnone] at hb
      cases hb

/-- **A call pays for what it grants** to its key, and changes the balance of no other. -/
theorem RateLimiter.Fine.pays {l : RateLimiter} {burst rate : ℚ} {now : ℤ}
    (h : l.Fine burst rate (seconds now)) (hrate : 0 ≤ rate) (hwhole : l.Whole)
    (key k : GoString) :
    (Beardrive.allow l now key).1.balance k (seconds now) +
        (if (Beardrive.allow l now key).2 && decide (key = k) then 1 else 0) ≤
      l.balance k (seconds now) := by
  obtain ⟨tokens, hstate, hpaid, -, hle⟩ := allow_spec l now key
  rw [hstate]
  by_cases hk : k = key
  · subst hk
    have hrefilled := (h.refilled_eq k).trans (h.balance_evict hwhole hrate k)
    rw [hrefilled] at hle hpaid
    rw [balance_of_some (l := { l with buckets := (l.evict now).insert k ⟨tokens, now⟩ })
      (AList.lookup_insert _), decide_eq_true rfl, Bool.and_true]
    dsimp only
    rw [TokenBucket.worth_self tokens now (by rw [h.burst_eq]; exact hle.trans (h.balance_le k))]
    exact hpaid.le
  · rw [decide_eq_false (Ne.symm hk), Bool.and_false, if_neg Bool.false_ne_true, add_zero,
      ← h.balance_evict hwhole hrate k]
    refine le_of_eq ?_
    rw [balance, balance]
    dsimp only
    rw [AList.lookup_insert_ne hk]

/-- **A limiter whose burst comes in in whole seconds is metered.** -/
theorem allow_metered {burst rate : ℚ} (hburst : 0 ≤ burst) (hrate : 0 ≤ rate)
    (hwhole : burst ≤ ⌊burst / rate⌋ * rate) (key : GoString) :
    Metered allowStep (fun c : AllowCall => seconds c.now) (fun c => decide (c.key = key))
      (RateLimiter.Fine burst rate) (RateLimiter.balance key) burst rate where
  rate_nonneg := hrate
  nonneg h := h.balance_nonneg hburst hrate key
  le_burst h := h.balance_le key
  later h hle := ⟨h.later hle, h.balance_later hrate hle key⟩
  pays {l c} h := by
    have hwhole' : l.Whole := by
      rw [RateLimiter.Whole, h.burst_eq, h.rate_eq]
      exact hwhole
    exact ⟨h.allow hburst hrate hwhole' c.key, h.pays hrate hwhole' c.key key⟩

/-! ### Rates -/

/-- Whole seconds bring in the burst. -/
theorem whole_of_eq {burst rate : ℚ} {n : ℤ} (hrate : 0 < rate) (h : burst = n * rate) :
    burst ≤ ⌊burst / rate⌋ * rate := by
  rw [h, mul_div_cancel_right₀ _ hrate.ne', Int.floor_intCast]

theorem newRateLimiter_rate_pos (rpm : ℤ) : 0 < (newRateLimiter rpm).rate := by
  rw [newRateLimiter]
  dsimp only
  have hpos : 0 < if rpm ≤ 0 then defaultShareRPM else rpm := by
    split_ifs with h
    · decide
    · exact not_le.mp h
  exact div_pos (Int.cast_pos.mpr hpos) (by norm_num)

theorem newRateLimiter_burst_nonneg (rpm : ℤ) : 0 ≤ (newRateLimiter rpm).burst :=
  le_trans (by norm_num) (le_max_right _ 10)

/-- The rates whose burst comes in in whole seconds: the default, those whose burst is a quarter of
a minute's calls, and those that ten calls need whole seconds of. -/
theorem newRateLimiter_whole {rpm : ℤ} (h : rpm ≤ 0 ∨ 40 ≤ rpm ∨ rpm ∣ 600) :
    (newRateLimiter rpm).Whole := by
  have hpos := newRateLimiter_rate_pos rpm
  rw [RateLimiter.Whole]
  by_cases hdefault : rpm ≤ 0
  · refine whole_of_eq (n := 15) hpos ?_
    rw [newRateLimiter]
    dsimp only
    rw [if_pos hdefault, defaultShareRPM]
    norm_num
  · have hrate : (newRateLimiter rpm).rate = rpm / 60 := by
      rw [newRateLimiter]
      dsimp only
      rw [if_neg hdefault]
    have hburst : (newRateLimiter rpm).burst = max ((rpm : ℚ) / 4) 10 := by
      rw [newRateLimiter]
      dsimp only
      rw [if_neg hdefault]
    by_cases hfast : 40 ≤ rpm
    · refine whole_of_eq (n := 15) hpos ?_
      have hcast : (40 : ℚ) ≤ rpm := by exact_mod_cast hfast
      rw [hrate, hburst, max_eq_left (by linarith only [hcast])]
      push_cast
      ring
    · obtain ⟨n, hn⟩ := (h.resolve_left hdefault).resolve_left hfast
      refine whole_of_eq (n := n) hpos ?_
      have hcast : (rpm : ℚ) ≤ 40 := by exact_mod_cast (not_le.mp hfast).le
      have hmul : (600 : ℚ) = rpm * n := by exact_mod_cast hn
      rw [hrate, hburst, max_eq_right (by linarith only [hcast])]
      linarith only [hmul]

/-- **Limiters of these rates keep their promise**, in every run. -/
theorem neverOvergrants_of_whole {rpm : ℤ} (h : rpm ≤ 0 ∨ 40 ≤ rpm ∨ rpm ∣ 600) :
    NeverOvergrants rpm := by
  intro calls key lo hi hsorted hle
  have hmetered := allow_metered (newRateLimiter_burst_nonneg rpm) (newRateLimiter_rate_pos rpm).le
    (newRateLimiter_whole h) key
  have hstart : RateLimiter.Fine (newRateLimiter rpm).burst (newRateLimiter rpm).rate
      (newRateLimiter rpm) (min lo (seconds ((calls.head?.map (·.now)).getD 0))) := by
    refine ⟨rfl, rfl, fun {key b} hb => ?_⟩
    rw [newRateLimiter, AList.lookup_empty] at hb
    cases hb
  refine hmetered.grants_le hstart hle (min_le_left _ _)
    (hsorted.imp fun h => seconds_le_iff.mpr h) fun c hc => ?_
  refine (min_le_right _ _).trans (seconds_le_iff.mpr ?_)
  cases calls with
  | nil => cases hc
  | cons d calls =>
    rcases List.mem_cons.mp hc with rfl | hc
    · exact le_rfl
    · exact (List.pairwise_cons.mp hsorted).1 c hc

/-! ### What the early drop hands out -/

/-- A new key is granted a call, and gets what is left of the burst. -/
theorem allow_new {l : RateLimiter} {now : ℤ} {key : GoString}
    (h : (l.evict now).lookup key = none) (hburst : 1 ≤ l.burst) :
    allow l now key =
      ({ l with buckets := (l.evict now).insert key ⟨l.burst - 1, now⟩ }, true) := by
  have hself : sinceReading now now = 0 := by
    rw [sinceReading]
    omega
  have hrefilled : l.refilled now key = l.burst := by
    rw [RateLimiter.refilled, h]
    dsimp only [Option.getD_none]
    rw [hself, seconds, Int.cast_zero, zero_div, zero_mul, add_zero, min_self]
  rw [allow, hrefilled, if_neg (not_lt.mpr hburst)]

/-- A limiter with one bucket. -/
def RateLimiter.single (l : RateLimiter) (key : GoString) (tokens : ℚ) (now : ℤ) : RateLimiter :=
  { l with buckets := (∅ : AList fun _ : GoString => TokenBucket).insert key ⟨tokens, now⟩ }

/-- At one time a bucket is granted its tokens. -/
theorem allow_single (l : RateLimiter) (key : GoString) {tokens : ℚ} (now : ℤ) (h : 1 ≤ tokens)
    (hburst : tokens ≤ l.burst) :
    allow (l.single key tokens now) now key = (l.single key (tokens - 1) now, true) := by
  have hevict : (l.single key tokens now).evict now = (l.single key tokens now).buckets := by
    refine if_neg ?_
    rw [RateLimiter.single, AList.entries_insert_of_notMem (AList.notMem_empty _)]
    show ¬ 10000 < 1
    decide
  have hself : sinceReading now now = 0 := by
    rw [sinceReading]
    omega
  have hrefilled : (l.single key tokens now).refilled now key = tokens := by
    rw [RateLimiter.refilled, hevict, RateLimiter.single]
    dsimp only
    rw [AList.lookup_insert, Option.getD_some]
    dsimp only
    rw [hself, seconds, Int.cast_zero, zero_div, zero_mul, add_zero, min_eq_right hburst]
  rw [allow, hrefilled, if_neg (not_lt.mpr h), hevict, RateLimiter.single]
  dsimp only
  rw [AList.insert_insert]
  rfl

theorem grants_single (p : AllowCall → Bool) (l : RateLimiter) {key : GoString} {now : ℤ}
    (hp : p ⟨now, key⟩ = true) (n : ℕ) (h : (n : ℚ) ≤ l.burst) :
    grants allowStep p (l.single key n now) (List.replicate n ⟨now, key⟩) = n ∧
      stateAfter allowStep (l.single key n now) (List.replicate n ⟨now, key⟩) =
        l.single key 0 now := by
  induction n with
  | zero => exact ⟨rfl, by rw [Nat.cast_zero]; rfl⟩
  | succ n ih =>
    have hn : (n : ℚ) ≤ l.burst := le_trans (by simp) h
    have hone : (1 : ℚ) ≤ (n + 1 : ℕ) := by simp
    have hstep : allowStep (l.single key (n + 1 : ℕ) now) ⟨now, key⟩ = (l.single key n now, true) := by
      rw [allowStep, allow_single l key now hone h, Nat.cast_succ, add_sub_cancel_right]
    obtain ⟨hgrants, hstate⟩ := ih hn
    constructor
    · rw [List.replicate_succ, grants, hstep, hp, hgrants]
      exact Nat.add_comm 1 n
    · rw [List.replicate_succ, stateAfter, List.foldl_cons, hstep]
      exact hstate

/-- A key that finds no buckets is granted the burst. -/
theorem grants_fresh (p : AllowCall → Bool) {l : RateLimiter} {key : GoString} {now : ℤ}
    (hp : p ⟨now, key⟩ = true) (hevict : l.evict now = ∅) {n : ℕ} (hburst : l.burst = (n + 1 : ℕ)) :
    grants allowStep p l (List.replicate (n + 1) ⟨now, key⟩) = n + 1 ∧
      stateAfter allowStep l (List.replicate (n + 1) ⟨now, key⟩) = l.single key 0 now := by
  have hstep : allowStep l ⟨now, key⟩ = (l.single key n now, true) := by
    have hrest : l.burst - 1 = n := by rw [hburst, Nat.cast_succ, add_sub_cancel_right]
    rw [allowStep, allow_new (by rw [hevict, AList.lookup_empty]) (by rw [hburst]; simp), hevict,
      hrest]
    rfl
  obtain ⟨hgrants, hstate⟩ := grants_single p l hp n (by rw [hburst]; simp)
  constructor
  · rw [List.replicate_succ, grants, hstep, hp, hgrants]
    exact Nat.add_comm 1 n
  · rw [List.replicate_succ, stateAfter, List.foldl_cons, hstep]
    exact hstate

/-- The key that gets more. -/
def luckyKey : GoString := ascii "192.0.2.1"

/-- Other keys. -/
def otherKey (i : ℕ) : GoString := ascii "2001:db8::" ++ decimal i

/-- The reading at which the buckets of time zero are dropped: one nanosecond behind the seconds
they have to be idle. -/
def dropReading (rpm : ℤ) : ℤ := 600 / rpm * 10 ^ 9 + 1

/-- A key takes its burst, ten thousand others come along, and it takes a burst again. -/
def overgrantRun (rpm : ℤ) : List AllowCall :=
  List.replicate 10 ⟨0, luckyKey⟩ ++ (List.range 10000).map (fun i => ⟨0, otherKey i⟩) ++
    List.replicate 10 ⟨dropReading rpm, luckyKey⟩

theorem otherKey_injective : Function.Injective otherKey := fun _ _ h =>
  decimal_injective (List.append_cancel_left h)

theorem otherKey_ne (i : ℕ) : otherKey i ≠ luckyKey := by
  intro h
  rw [otherKey, luckyKey, ascii_ofList, ascii_ofList] at h
  exact absurd (List.cons.inj h).1 (by decide)

/-- Behind the others every bucket is of time zero, and there is one for each of them. -/
theorem others_spec (l : RateLimiter) (hburst : 1 ≤ l.burst) {n : ℕ} (hn : n ≤ 10000) :
    ∃ l', stateAfter allowStep (l.single luckyKey 0 0)
        ((List.range n).map fun i => ⟨0, otherKey i⟩) = l' ∧
      l'.burst = l.burst ∧ l'.rate = l.rate ∧ l'.buckets.entries.length = n + 1 ∧
      (∀ key b, l'.buckets.lookup key = some b → b.last = 0) ∧
      ∀ i, n ≤ i → l'.buckets.lookup (otherKey i) = none := by
  induction n with
  | zero =>
    refine ⟨l.single luckyKey 0 0, rfl, rfl, rfl, rfl, fun key b hb => ?_, fun i _ => ?_⟩
    · rw [RateLimiter.single] at hb
      by_cases hkey : key = luckyKey
      · rw [hkey, AList.lookup_insert] at hb
        cases hb
        rfl
      · rw [AList.lookup_insert_ne hkey, AList.lookup_empty] at hb
        cases hb
    · rw [RateLimiter.single, AList.lookup_insert_ne (otherKey_ne i), AList.lookup_empty]
  | succ n ih =>
    obtain ⟨l', hstate, hburst', hrate', hlen, hlast, hnone⟩ := ih (Nat.le_of_succ_le hn)
    have hevict : l'.evict 0 = l'.buckets := if_neg (by rw [hlen]; omega)
    have hnew := hnone n le_rfl
    have hstep := @allow_new l' 0 (otherKey n) (by rw [hevict, hnew])
      (by rw [hburst']; exact hburst)
    have hmem : otherKey n ∉ l'.buckets := AList.lookup_eq_none.mp hnew
    rw [hevict] at hstep
    refine ⟨{ l' with buckets := l'.buckets.insert (otherKey n) ⟨l'.burst - 1, 0⟩ }, ?_, hburst',
      hrate', ?_, ?_, ?_⟩
    · rw [List.range_succ, List.map_append, stateAfter, List.foldl_append]
      rw [stateAfter] at hstate
      rw [hstate, List.map_singleton, List.foldl_cons, List.foldl_nil, allowStep, hstep]
    · rw [AList.entries_insert_of_notMem hmem, List.length_cons, hlen]
    · intro key b hb
      dsimp only at hb
      by_cases hkey : key = otherKey n
      · rw [hkey, AList.lookup_insert] at hb
        cases hb
        rfl
      · rw [AList.lookup_insert_ne hkey] at hb
        exact hlast key b hb
    · intro i hi
      rw [AList.lookup_insert_ne fun h => by have := otherKey_injective h; omega]
      exact hnone i (by omega)

/-- **What the early drop hands out**: twice the burst. -/
theorem grants_overgrantRun {rpm : ℤ} (hpos : 0 < rpm) (hslow : rpm < 40) :
    grants allowStep (callsFor luckyKey 0 (seconds (dropReading rpm))) (newRateLimiter rpm)
      (overgrantRun rpm) = 20 := by
  have hburst : (newRateLimiter rpm).burst = (9 + 1 : ℕ) := by
    have hcast : (rpm : ℚ) ≤ 40 := by exact_mod_cast hslow.le
    rw [newRateLimiter]
    dsimp only
    rw [if_neg (not_le.mpr hpos), max_eq_right (by linarith only [hcast])]
    norm_num
  have hrate : (newRateLimiter rpm).rate = rpm / 60 := by
    rw [newRateLimiter]
    dsimp only
    rw [if_neg (not_le.mpr hpos)]
  have hreading : 0 ≤ dropReading rpm := by
    have hdiv := Int.ediv_nonneg (show (0 : ℤ) ≤ 600 by decide) hpos.le
    rw [dropReading]
    omega
  have hpick : ∀ t, 0 ≤ t → t ≤ dropReading rpm →
      callsFor luckyKey 0 (seconds (dropReading rpm)) ⟨t, luckyKey⟩ = true := by
    intro t h h'
    rw [callsFor, Metered.during, decide_eq_true rfl, Bool.true_and]
    refine decide_eq_true ⟨?_, seconds_le_iff.mpr h'⟩
    have hzero := seconds_le_iff.mpr h
    rwa [seconds, Int.cast_zero, zero_div] at hzero
  obtain ⟨hfirst, hstate⟩ := grants_fresh (callsFor luckyKey 0 (seconds (dropReading rpm)))
    (l := newRateLimiter rpm) (hpick 0 le_rfl hreading) (if_neg (show ¬ 10000 < 0 by decide)) hburst
  obtain ⟨l', hothers, hburst', hrate', hlen, hlast, -⟩ :=
    others_spec (newRateLimiter rpm) (by rw [hburst]; norm_num) le_rfl
  have hdrop : l'.evict (dropReading rpm) = ∅ := by
    refine RateLimiter.evict_eq_empty (by rw [hlen]; decide) fun key b hb => ?_
    have hidle : l'.idle = 600 / rpm * 10 ^ 9 := by
      rw [RateLimiter.idle, hburst', hrate', hburst, hrate]
      refine congrArg (· * 10 ^ 9) (Int.floor_eq_iff.mpr ?_)
      have hsecs : ((9 + 1 : ℕ) : ℚ) / (rpm / 60) = 600 / rpm := by
        rw [div_div_eq_mul_div]
        norm_num
      have hcast : (0 : ℚ) < rpm := Int.cast_pos.mpr hpos
      rw [hsecs, le_div_iff₀ hcast, div_lt_iff₀ hcast]
      constructor
      · exact_mod_cast Int.ediv_mul_le 600 hpos.ne'
      · exact_mod_cast Int.lt_ediv_add_one_mul_self 600 hpos
    have hbound : 600 / rpm ≤ 600 := Int.ediv_le_self rpm (by decide)
    rw [hidle, hlast key b hb, sinceReading, dropReading]
    omega
  obtain ⟨hsecond, -⟩ := grants_fresh (callsFor luckyKey 0 (seconds (dropReading rpm)))
    (hpick (dropReading rpm) hreading le_rfl) hdrop (hburst'.trans hburst)
  have hskipped : grants allowStep (callsFor luckyKey 0 (seconds (dropReading rpm)))
      ((newRateLimiter rpm).single luckyKey 0 0)
      ((List.range 10000).map fun i => ⟨0, otherKey i⟩) = 0 := by
    refine grants_eq_zero _ _ fun c hc => ?_
    obtain ⟨i, -, rfl⟩ := List.mem_map.mp hc
    rw [callsFor, Metered.during, decide_eq_false (otherKey_ne i), Bool.false_and]
  rw [overgrantRun, grants_append, grants_append, hfirst, hstate, hskipped, stateAfter,
    List.foldl_append, ← stateAfter, ← stateAfter, hstate, hothers, hsecond]

/-- It is more than a rate brings in that does not divide six hundred. -/
theorem overgrantRun_exceeds {rpm : ℤ} (hpos : 0 < rpm) (hslow : rpm < 40) (hdvd : ¬ rpm ∣ 600) :
    (newRateLimiter rpm).burst +
        (newRateLimiter rpm).rate * (seconds (dropReading rpm) - 0) < 20 := by
  have hcast : (rpm : ℚ) ≤ 39 := by exact_mod_cast Int.le_of_lt_add_one hslow
  have hquot : rpm * (600 / rpm) ≤ 599 := by
    have hle := Int.mul_ediv_self_le (x := 600) hpos.ne'
    have hne : rpm * (600 / rpm) ≠ 600 := fun h => hdvd ⟨600 / rpm, h.symm⟩
    omega
  have hquot' : (rpm : ℚ) * (600 / rpm : ℤ) ≤ 599 := by exact_mod_cast hquot
  rw [newRateLimiter]
  dsimp only
  rw [if_neg (not_le.mpr hpos), max_eq_right (by linarith only [hcast]), sub_zero, seconds,
    dropReading]
  push_cast
  have hsplit : (rpm : ℚ) / 60 * (((600 / rpm : ℤ) * 1000000000 + 1) / 10 ^ 9) =
      rpm * (600 / rpm : ℤ) / 60 + rpm / (60 * 10 ^ 9) := by
    field_simp
    norm_num
  rw [hsplit]
  linarith only [hquot', hcast]

theorem overgrantRun_sorted {rpm : ℤ} (hpos : 0 < rpm) :
    (overgrantRun rpm).Pairwise fun c d => c.now ≤ d.now := by
  have hreading : 0 ≤ dropReading rpm := by
    have hdiv := Int.ediv_nonneg (show (0 : ℤ) ≤ 600 by decide) hpos.le
    rw [dropReading]
    omega
  have hzero : ∀ c ∈ List.replicate 10 (AllowCall.mk 0 luckyKey) ++
      (List.range 10000).map (fun i => ⟨0, otherKey i⟩), c.now = 0 := by
    intro c hc
    rcases List.mem_append.mp hc with hc | hc
    · rw [List.eq_of_mem_replicate hc]
    · obtain ⟨i, -, rfl⟩ := List.mem_map.mp hc
      rfl
  rw [overgrantRun, List.pairwise_append]
  refine ⟨List.pairwise_of_forall_mem_list fun c hc d hd => ?_,
    List.pairwise_replicate.mpr (.inr le_rfl), fun c hc d hd => ?_⟩
  · rw [hzero c hc, hzero d hd]
  · rw [hzero c hc, List.eq_of_mem_replicate hd]
    exact hreading

/-- **Which limiters keep the promise**: those whose burst comes in in whole seconds. -/
theorem neverOvergrants_iff (rpm : ℤ) :
    NeverOvergrants rpm ↔ rpm ≤ 0 ∨ 40 ≤ rpm ∨ rpm ∣ 600 := by
  refine ⟨fun h => ?_, neverOvergrants_of_whole⟩
  by_contra hcon
  obtain ⟨hpos, hslow, hdvd⟩ : 0 < rpm ∧ rpm < 40 ∧ ¬ rpm ∣ 600 := by
    rw [not_or, not_or, not_le, not_le] at hcon
    exact hcon
  have hpromise := h (overgrantRun rpm) luckyKey 0 (seconds (dropReading rpm))
    (overgrantRun_sorted hpos) ?_
  · rw [grants_overgrantRun hpos hslow] at hpromise
    exact absurd hpromise (not_le.mpr (overgrantRun_exceeds hpos hslow hdvd))
  · have hdiv := Int.ediv_nonneg (show (0 : ℤ) ≤ 600 by decide) hpos.le
    have hreading : 0 ≤ dropReading rpm := by
      rw [dropReading]
      omega
    have hzero := seconds_le_iff.mpr hreading
    rwa [seconds, Int.cast_zero, zero_div] at hzero

/-- Seven calls a minute: one key is granted twenty in a little over eighty-five seconds, which do not
bring in the ten that are not the burst. -/
theorem seven_a_minute_overgrants :
    (newRateLimiter 7).burst + (newRateLimiter 7).rate * (seconds (dropReading 7) - 0) <
      grants allowStep (callsFor luckyKey 0 (seconds (dropReading 7))) (newRateLimiter 7)
        (overgrantRun 7) ∧
      (overgrantRun 7).Pairwise fun c d => c.now ≤ d.now := by
  rw [grants_overgrantRun (by decide) (by decide)]
  exact ⟨overgrantRun_exceeds (by decide) (by decide) (by decide),
    overgrantRun_sorted (by decide)⟩

end Beardrive
