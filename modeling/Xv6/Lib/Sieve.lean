/-
# `Xv6.Lib.Sieve` — striking out multiples, round by round

One round keeps the head of a list as the next prime and strikes its multiples out of
the rest.  `stream N k` is what is left of the numbers from 2 to `N` after `k` rounds:
the numbers without a prime factor among the first `k` primes.  Its head is prime
number `k`, when there is one up to `N`.
-/
import Mathlib.NumberTheory.PrimeCounting

namespace Machine

open List

/-- One round: the multiples of the head are struck out of the rest. -/
def strike : List Nat → List Nat
  | [] => []
  | p :: xs => xs.filter fun x => x % p ≠ 0

/-- What is left of the numbers from 2 to `N` after `k` rounds. -/
def stream (N k : Nat) : List Nat := strike^[k] (List.range' 2 (N - 1))

/-- The primes up to `N`, in increasing order. -/
def primesUpTo (N : Nat) : List Nat := (List.range (N + 1)).filter Nat.Prime

section
variable {N k p x : Nat} {xs : List Nat}

theorem stream_succ (N k : Nat) : stream N (k + 1) = strike (stream N k) :=
  Function.iterate_succ_apply' ..

theorem mem_upTo : x ∈ List.range' 2 (N - 1) ↔ 2 ≤ x ∧ x ≤ N := by
  rw [mem_range'_1]
  omega

/-- The head is a multiple of itself. -/
theorem strike_cons (p : Nat) (xs : List Nat) :
    strike (p :: xs) = (p :: xs).filter fun x => x % p ≠ 0 := by
  rw [strike, filter_cons_of_neg (by simp)]

theorem prime_nth (k : Nat) : (Nat.nth Nat.Prime k).Prime := Nat.prime_nth_prime k

/-- A prime beyond prime number `k` is at least the next one. -/
theorem nth_succ_le {q : Nat} (hq : q.Prime) (h : Nat.nth Nat.Prime k < q) :
    Nat.nth Nat.Prime (k + 1) ≤ q := by
  rw [← Nat.nth_count hq] at h ⊢
  have hlt := (Nat.nth_lt_nth Nat.infinite_setOfPred_prime).mp h
  exact (Nat.nth_le_nth Nat.infinite_setOfPred_prime).mpr hlt

theorem nth_lt_succ (k : Nat) : Nat.nth Nat.Prime k < Nat.nth Nat.Prime (k + 1) :=
  (Nat.nth_lt_nth Nat.infinite_setOfPred_prime).mpr (Nat.lt_succ_self k)

/-- Of the numbers with no factor below prime number `k`, those that it does not divide. -/
theorem nth_le_minFac_iff (hx : 2 ≤ x) :
    Nat.nth Nat.Prime k ≤ x.minFac ∧ x % Nat.nth Nat.Prime k ≠ 0 ↔
      Nat.nth Nat.Prime (k + 1) ≤ x.minFac := by
  constructor
  · rintro ⟨hle, hmod⟩
    refine nth_succ_le (Nat.minFac_prime (by omega)) (lt_of_le_of_ne hle fun he => hmod ?_)
    rw [he]
    exact Nat.mod_eq_zero_of_dvd (Nat.minFac_dvd x)
  · intro hle
    have hlt := lt_of_lt_of_le (nth_lt_succ k) hle
    refine ⟨hlt.le, fun hmod => ?_⟩
    exact absurd (Nat.minFac_le_of_dvd (prime_nth k).two_le (Nat.dvd_of_mod_eq_zero hmod))
      (Nat.not_le.mpr hlt)

/-- The least number with no factor below prime number `k` is that prime. -/
theorem head?_filter_minFac (N k : Nat) :
    ((List.range' 2 (N - 1)).filter fun x => Nat.nth Nat.Prime k ≤ x.minFac).head?
      = if Nat.nth Nat.Prime k ≤ N then some (Nat.nth Nat.Prime k) else none := by
  rw [List.head?_filter]
  have hle : ∀ x, 2 ≤ x → x < Nat.nth Nat.Prime k → ¬ Nat.nth Nat.Prime k ≤ x.minFac :=
    fun x h2 hx => Nat.not_le.mpr (lt_of_le_of_lt (Nat.minFac_le (by omega)) hx)
  split
  · next h =>
      refine List.find?_range'_eq_some.mpr
        ⟨?_, mem_upTo.mpr ⟨(prime_nth k).two_le, h⟩, fun j h2 hj => ?_⟩
      · rw [(prime_nth k).minFac_eq]
        exact decide_eq_true le_rfl
      · simpa using hle j h2 hj
  · next h =>
      refine List.find?_eq_none.mpr fun x hx => ?_
      obtain ⟨h2, hxN⟩ := mem_upTo.mp hx
      simpa using hle x h2 (by omega)

theorem stream_eq (N k : Nat) : stream N k
    = (List.range' 2 (N - 1)).filter fun x => Nat.nth Nat.Prime k ≤ x.minFac := by
  induction k with
  | zero =>
    refine (filter_eq_self.mpr fun x hx => ?_).symm
    rw [Nat.nth_prime_zero_eq_two, decide_eq_true_eq]
    exact (Nat.minFac_prime (by have := (mem_upTo.mp hx).1; omega)).two_le
  | succ k ih =>
    have hhead := head?_filter_minFac N k
    have hnext : ((List.range' 2 (N - 1)).filter fun x => Nat.nth Nat.Prime k ≤ x.minFac).filter
          (fun x => x % Nat.nth Nat.Prime k ≠ 0)
        = (List.range' 2 (N - 1)).filter fun x => Nat.nth Nat.Prime (k + 1) ≤ x.minFac := by
      rw [filter_filter]
      refine filter_congr fun x hx => ?_
      rw [← Bool.decide_and, decide_eq_decide, and_comm, nth_le_minFac_iff (mem_upTo.mp hx).1]
    rw [stream_succ, ih, ← hnext]
    cases hl : (List.range' 2 (N - 1)).filter fun x => Nat.nth Nat.Prime k ≤ x.minFac with
    | nil => rfl
    | cons p xs =>
      rw [hl, List.head?_cons] at hhead
      split_ifs at hhead
      cases hhead
      exact strike_cons _ xs

theorem head?_stream (N k : Nat) : (stream N k).head?
    = if Nat.nth Nat.Prime k ≤ N then some (Nat.nth Nat.Prime k) else none := by
  rw [stream_eq, head?_filter_minFac]

theorem prime_of_stream (h : stream N k = p :: xs) : p.Prime := by
  have hhead := head?_stream N k
  rw [h, List.head?_cons] at hhead
  split_ifs at hhead
  cases hhead
  exact prime_nth k

theorem nodup_stream (N k : Nat) : (stream N k).Nodup := by
  rw [stream_eq]
  exact List.Nodup.filter _ nodup_range'

/-! ## The primes -/

theorem primesUpTo_eq (N : Nat) : primesUpTo N = (stream N 0).filter Nat.Prime := by
  rw [primesUpTo, range_eq_range']
  cases N with
  | zero => decide
  | succ N =>
    rfl

/-- A round strikes out no prime but the head. -/
theorem filter_prime_strike (h : stream N k = p :: xs) :
    (strike (p :: xs)).filter Nat.Prime = xs.filter Nat.Prime := by
  rw [strike, filter_filter]
  refine filter_congr fun x hx => ?_
  rw [← Bool.decide_and, decide_eq_decide, and_iff_left_iff_imp]
  intro hprime hmod
  have hnodup := nodup_stream N k
  rw [h] at hnodup
  have hpx : p = x := (Nat.prime_dvd_prime_iff_eq (prime_of_stream h) hprime).mp
    (Nat.dvd_of_mod_eq_zero hmod)
  exact (nodup_cons.mp hnodup).1 (hpx ▸ hx)

theorem drop_primesUpTo (N k : Nat) : (primesUpTo N).drop k = (stream N k).filter Nat.Prime := by
  induction k with
  | zero => rw [drop_zero, primesUpTo_eq]
  | succ k ih =>
    rw [← drop_drop, ih, stream_succ]
    cases hs : stream N k with
    | nil => rfl
    | cons p xs =>
      rw [filter_prime_strike hs, filter_cons_of_pos (by simpa using prime_of_stream hs)]
      rfl

theorem getElem?_primesUpTo (N k : Nat) : (primesUpTo N)[k]? = (stream N k).head? := by
  rw [← List.head?_drop, drop_primesUpTo]
  cases hs : stream N k with
  | nil => rfl
  | cons p xs => rw [filter_cons_of_pos (by simpa using prime_of_stream hs)]; rfl

theorem stream_eq_nil_iff : stream N k = [] ↔ (primesUpTo N).length ≤ k := by
  rw [← List.getElem?_eq_none_iff, getElem?_primesUpTo, List.head?_eq_none_iff]

end

end Machine
