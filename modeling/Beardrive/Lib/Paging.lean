import Mathlib

/-!
# Pages of a sorted list

A list is served in pages. A page that is not the last one comes with a mark of its last entry, and
the next page begins behind everything that does not sort behind the mark. The mark may tell less
than the entry: it has a key, and the list is sorted by the keys without being strictly so. It may
also not be readable. Nothing here refers to any particular list.

A page boundary between two entries of one key loses the second one, and with it whatever else has
the key; nothing ever brings it back, since the pages behind it are behind the key. So the pages are
the list exactly where no boundary is like that.

## Main definitions

* `resume`, `follow` — the rest behind a mark, and all pages one after the other
* `Cut` — a boundary at which nothing is lost

## Main results

* `follow_eq_iff` — the pages are the list exactly where every boundary is a cut
-/

namespace Beardrive

namespace Paging

variable {α β : Type*} [LinearOrder β] (key : α → β) (readable : α → Bool)

/-- What is behind a mark. The greatest keys come first. -/
def resume (l : List α) (a : α) : Option (List α) :=
  if readable a then some (l.dropWhile fun b => decide (key a ≤ key b)) else none

/-- The pages from a rest on, `fuel` at most, one after the other. -/
def follow (l : List α) (n : ℕ) : ℕ → List α → Option (List α)
  | 0, _ => none
  | fuel + 1, rest =>
    if rest.length ≤ n then some rest
    else (rest[n - 1]?.bind (resume key readable l)).bind fun next =>
      (follow l n fuel next).map (rest.take n ++ ·)

/-- The boundary behind `j` entries: the mark can be read, and what follows has another key. -/
def Cut (l : List α) (j : ℕ) : Prop :=
  ∃ a b, l[j - 1]? = some a ∧ l[j]? = some b ∧ readable a = true ∧ key b < key a

variable {key readable} {l : List α} {n : ℕ}

theorem dropWhile_eq_drop_length (p : α → Bool) (l : List α) :
    l.dropWhile p = l.drop (l.takeWhile p).length := by
  induction l with
  | nil => rfl
  | cons a l ih =>
    cases h : p a with
    | true => simp only [List.dropWhile_cons, List.takeWhile_cons, h, if_true, ih, List.length_cons,
        List.drop_succ_cons]
    | false => simp [h]

/-- Behind the mark of an entry is a part of what is behind the entry. -/
theorem exists_dropWhile_eq_drop (hsorted : l.Pairwise fun a b => key b ≤ key a) {j : ℕ} {a : α}
    (ha : l[j]? = some a) : ∃ i, j + 1 ≤ i ∧
      l.dropWhile (fun b => decide (key a ≤ key b)) = l.drop i := by
  induction l generalizing j with
  | nil => cases ha
  | cons b l ih =>
    obtain ⟨hfirst, hrest⟩ := List.pairwise_cons.mp hsorted
    have hle : key a ≤ key b := by
      cases j with
      | zero =>
        obtain rfl := Option.some.inj ha
        exact le_rfl
      | succ j => exact hfirst a (List.mem_of_getElem? ha)
    simp only [List.dropWhile_cons, hle, decide_true, if_true]
    cases j with
    | zero =>
      refine ⟨(l.takeWhile fun b => decide (key a ≤ key b)).length + 1, by omega, ?_⟩
      rw [List.drop_succ_cons]
      exact dropWhile_eq_drop_length _ _
    | succ j =>
      obtain ⟨i, hi, hdrop⟩ := ih hrest ha
      exact ⟨i + 1, by omega, by rw [hdrop, List.drop_succ_cons]⟩

/-- Where the key changes, it is all of it. -/
theorem dropWhile_eq_drop_of_lt (hsorted : l.Pairwise fun a b => key b ≤ key a) {j : ℕ} {a b : α}
    (ha : l[j]? = some a) (hb : l[j + 1]? = some b) (hlt : key b < key a) :
    l.dropWhile (fun b => decide (key a ≤ key b)) = l.drop (j + 1) := by
  induction l generalizing j with
  | nil => cases ha
  | cons c l ih =>
    obtain ⟨hfirst, hrest⟩ := List.pairwise_cons.mp hsorted
    have hle : key a ≤ key c := by
      cases j with
      | zero =>
        obtain rfl := Option.some.inj ha
        exact le_rfl
      | succ j => exact hfirst a (List.mem_of_getElem? ha)
    simp only [List.dropWhile_cons, hle, decide_true, if_true, List.drop_succ_cons]
    cases j with
    | zero =>
      obtain ⟨tail, rfl⟩ : ∃ tail, l = b :: tail := by
        cases l with
        | nil => cases hb
        | cons d tail => exact ⟨tail, by rw [Option.some.inj hb]⟩
      simp [not_le.mpr hlt]
    | succ j => exact ih hrest ha hb

/-- Pages never hold more than there is left. -/
theorem length_follow_le (hsorted : l.Pairwise fun a b => key b ≤ key a) (hn : 0 < n)
    {fuel j : ℕ} {out : List α} (h : follow key readable l n fuel (l.drop j) = some out) :
    out.length ≤ l.length - j := by
  induction fuel generalizing j out with
  | zero => cases h
  | succ fuel ih =>
    rw [follow] at h
    split_ifs at h with hlast
    · obtain rfl := Option.some.inj h
      exact Nat.le_of_eq List.length_drop
    · rw [List.length_drop] at hlast
      obtain ⟨next, hnext, h⟩ := Option.bind_eq_some_iff.mp h
      obtain ⟨a, ha, hresume⟩ := Option.bind_eq_some_iff.mp hnext
      obtain ⟨rest, hrest, rfl⟩ := Option.map_eq_some_iff.mp h
      rw [List.getElem?_drop] at ha
      obtain ⟨i, hi, hdrop⟩ := exists_dropWhile_eq_drop hsorted ha
      rw [resume] at hresume
      split_ifs at hresume
      rw [hdrop] at hresume
      rw [← Option.some.inj hresume] at hrest
      have hle := ih hrest
      rw [List.length_append, List.length_take, List.length_drop]
      omega

/-- **The pages from a rest on are the rest** exactly where every boundary behind it is a cut. -/
theorem follow_drop_eq_iff (hsorted : l.Pairwise fun a b => key b ≤ key a) (hn : 0 < n)
    {j : ℕ} (hj : j ≤ l.length) :
    (∃ fuel, follow key readable l n fuel (l.drop j) = some (l.drop j)) ↔
      ∀ k, 0 < k → j + k * n < l.length → Cut key readable l (j + k * n) := by
  induction hm : l.length - j using Nat.strongRecOn generalizing j with
  | _ m ih =>
    by_cases hlast : (l.drop j).length ≤ n
    · rw [List.length_drop] at hlast
      refine iff_of_true ⟨1, by rw [follow, if_pos (by rwa [List.length_drop])]⟩ ?_
      intro k hk hlt
      have hkn : n ≤ k * n := Nat.le_mul_of_pos_left n hk
      omega
    rw [List.length_drop, Nat.not_le] at hlast
    obtain ⟨a, ha⟩ : ∃ a, l[j + n - 1]? = some a :=
      ⟨_, List.getElem?_eq_getElem (show j + n - 1 < l.length by omega)⟩
    obtain ⟨b, hb⟩ : ∃ b, l[j + n]? = some b :=
      ⟨_, List.getElem?_eq_getElem (show j + n < l.length by omega)⟩
    have hindex : j + n - 1 + 1 = j + n := by omega
    have hstep : ∀ fuel, follow key readable l n (fuel + 1) (l.drop j) =
        (resume key readable l a).bind fun next =>
          (follow key readable l n fuel next).map ((l.drop j).take n ++ ·) := by
      intro fuel
      rw [follow, if_neg (by rw [List.length_drop]; omega), List.getElem?_drop,
        show j + (n - 1) = j + n - 1 by omega, ha, Option.bind_some]
    have hsplit : l.drop j = (l.drop j).take n ++ l.drop (j + n) := by
      rw [← List.drop_drop, List.take_append_drop]
    have hnext := ih (l.length - (j + n)) (by omega) (show j + n ≤ l.length by omega) rfl
    constructor
    · rintro ⟨fuel, hfuel⟩
      cases fuel with
      | zero => cases hfuel
      | succ fuel =>
        rw [hstep] at hfuel
        obtain ⟨next, hresume, hfuel⟩ := Option.bind_eq_some_iff.mp hfuel
        obtain ⟨rest, hrest, heq⟩ := Option.map_eq_some_iff.mp hfuel
        rw [resume] at hresume
        split_ifs at hresume with hread
        obtain rfl := Option.some.inj hresume
        obtain ⟨i, hi, hdrop⟩ := exists_dropWhile_eq_drop hsorted ha
        rw [hdrop] at hrest
        -- a rest that is too short never makes up for what was lost
        have hlen := congrArg List.length heq
        have hle := length_follow_le hsorted hn hrest
        rw [List.length_append, List.length_take, List.length_drop] at hlen
        have hi' : i = j + n := by omega
        have hrest' : rest = l.drop (j + n) := by
          have hboth := heq.trans hsplit
          exact List.append_cancel_left hboth
        subst hi'
        rw [hrest'] at hrest
        have hcuts := hnext.mp ⟨fuel, hrest⟩
        have hlt : key b < key a := by
          by_contra hnot
          have hmem : ∀ p : α → Bool, p b = true → l.dropWhile p = l.drop (j + n) → False := by
            intro p hp hdrop
            have hcons : l.drop (j + n) = b :: l.drop (j + n + 1) := by
              rw [List.drop_eq_getElem_cons (by omega)]
              rw [List.getElem?_eq_getElem (by omega)] at hb
              rw [Option.some.inj hb]
            have hhead := List.head?_dropWhile_not p l
            rw [hdrop, hcons] at hhead
            simp [hp] at hhead
          exact hmem _ (decide_eq_true (not_lt.mp hnot)) hdrop
        intro k hk hlt'
        cases k with
        | zero => cases hk
        | succ k =>
          rcases Nat.eq_zero_or_pos k with rfl | hpos
          · rw [Nat.zero_add, Nat.one_mul]
            exact ⟨a, b, ha, hb, hread, hlt⟩
          · have hcut := hcuts k hpos (by rw [Nat.succ_mul] at hlt'; omega)
            rwa [show j + (k + 1) * n = j + n + k * n by rw [Nat.succ_mul]; omega]
    · intro hcuts
      obtain ⟨a', b', ha', hb', hread, hlt⟩ := hcuts 1 Nat.one_pos (by omega)
      rw [Nat.one_mul] at ha' hb'
      rw [ha] at ha'
      rw [hb] at hb'
      obtain rfl := Option.some.inj ha'
      obtain rfl := Option.some.inj hb'
      have hdrop := dropWhile_eq_drop_of_lt hsorted ha (by rwa [hindex]) hlt
      obtain ⟨fuel, hfuel⟩ := hnext.mpr fun k hk hlt' => by
        have hcut := hcuts (k + 1) (by omega) (by rw [Nat.succ_mul]; omega)
        rwa [show j + (k + 1) * n = j + n + k * n by rw [Nat.succ_mul]; omega] at hcut
      refine ⟨fuel + 1, ?_⟩
      rw [hstep, resume, if_pos hread, hdrop, hindex, Option.bind_some, hfuel, Option.map_some,
        ← hsplit]

/-- **The pages are the list** exactly where every boundary is a cut. -/
theorem follow_eq_iff (hsorted : l.Pairwise fun a b => key b ≤ key a) (hn : 0 < n) :
    (∃ fuel, follow key readable l n fuel l = some l) ↔
      ∀ k, 0 < k → k * n < l.length → Cut key readable l (k * n) := by
  have h := @follow_drop_eq_iff _ _ _ key readable l n hsorted hn 0 (Nat.zero_le _)
  simpa using h

end Paging

end Beardrive
