import Bcc.Text.Outcome

namespace Bisect

open CText

/-!
# Binary search for the last place

A loop that halves an interval of places until one is left.  It keeps the upper half if a test
holds in the middle, and the lower one otherwise, so it ends at the last place where the test
holds, if the test holds up to some place and not behind it.

* `last` — the loop, with the ends of the interval when it stops;
* `last_spec` — it ends with one place, and the test fails behind it.
-/

/-- `while (lo < hi) { mid = lo + (hi - lo + 1) / 2; if (test(mid)) lo = mid; else hi = mid - 1; }`,
    for at most `fuel` turns. -/
def last (test : Int → Res Bool) : Nat → Int → Int → Res (Int × Int)
  | 0, lo, hi => if lo < hi then .error .outOfFuel else .ok (lo, hi)
  | fuel + 1, lo, hi =>
    if lo < hi then do
      let mid := lo + (hi - lo + 1) / 2
      if ← test mid then last test fuel mid hi else last test fuel lo (mid - 1)
    else .ok (lo, hi)

/-- **The last place.**  On an interval on which the test can be made, and where it holds up to
    some place only, the loop ends at a place behind which it fails. -/
theorem last_spec {test : Int → Res Bool} {holds : Int → Bool} {fuel : Nat} {lo hi : Int}
    (hle : lo ≤ hi) (hfuel : hi - lo ≤ fuel)
    (htest : ∀ i, lo ≤ i → i ≤ hi → test i = .ok (holds i))
    (hdown : ∀ i j, lo ≤ i → i ≤ j → j ≤ hi → holds j = true → holds i = true) :
    ∃ i, last test fuel lo hi = .ok (i, i) ∧ lo ≤ i ∧ i ≤ hi
      ∧ (∀ j, i < j → j ≤ hi → holds j = false) ∧ (i = lo ∨ holds i = true) := by
  induction fuel generalizing lo hi with
  | zero =>
    obtain rfl : lo = hi := by omega
    exact ⟨lo, if_neg (Int.lt_irrefl lo), Int.le_refl lo, Int.le_refl lo,
      fun j hlo hhi => by omega, .inl rfl⟩
  | succ fuel ih =>
    by_cases hlt : lo < hi
    · have hmid : lo < lo + (hi - lo + 1) / 2 ∧ lo + (hi - lo + 1) / 2 ≤ hi
          ∧ hi - (lo + (hi - lo + 1) / 2) ≤ fuel
          ∧ lo + (hi - lo + 1) / 2 - 1 - lo ≤ fuel := by omega
      generalize hm : lo + (hi - lo + 1) / 2 = mid at hmid
      obtain ⟨hlo, hhi, hupper, hlower⟩ := hmid
      have hle : lo ≤ mid := Int.le_of_lt hlo
      rw [last, if_pos hlt]
      dsimp only
      rw [hm, htest mid hle hhi]
      cases hq : holds mid with
      | true =>
        obtain ⟨i, hlast, hmi, hih, hbehind, hi⟩ := ih hhi hupper
          (fun i hi => htest i (Int.le_trans hle hi))
          (fun i j hi => hdown i j (Int.le_trans hle hi))
        refine ⟨i, hlast, Int.le_trans hle hmi, hih, hbehind, .inr ?_⟩
        rcases hi with rfl | hi
        · exact hq
        · exact hi
      | false =>
        obtain ⟨i, hlast, hli, him, hbehind, hi⟩ := ih (Int.le_sub_one_of_lt hlo) hlower
          (fun i hi hi' => htest i hi (by omega))
          (fun i j hi hij hj => hdown i j hi hij (by omega))
        refine ⟨i, hlast, hli, by omega, fun j hij hj => ?_, hi⟩
        by_cases hjm : j ≤ mid - 1
        · exact hbehind j hij hjm
        · -- the test failed in the middle, and so it does from there on
          by_contra htrue
          rw [hdown mid j hle (by omega) hj (by simpa using htrue)] at hq
          cases hq
    · obtain rfl : lo = hi := by omega
      exact ⟨lo, if_neg hlt, Int.le_refl lo, Int.le_refl lo, fun j hlo hhi => by omega, .inl rfl⟩

end Bisect
