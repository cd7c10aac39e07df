import FiberStacks.Act.Stack
import Mathlib.Algebra.Ring.Nat
import Mathlib.Order.Monotone.Basic

/-!
# The sizes of growing stacks

A stack that is too small is doubled until what is needed fits, as long as its size is below the limit and its double
fits in 64 bits.

* `Growth.size` — the size after so many doublings;
* `Growth.Enough` — the least number of doublings after which what is needed fits;
* `Growth.Ends` — the ends of the loop with numbers without bound, and the one that 64 bits put to it;
* `Growth.of_ends` — **the loop ends so**, and `Growth.of_eq`, where it ends before 64 bits are too few;
* `Growth.Fits`, `Growth.of_eq_tooLarge_iff` — **it is exact if and only if the doublings it makes fit in 64 bits**.
-/

namespace FiberStacks

theorem Size.bound_eq : Size.bound = 2 ^ 64 := rfl

theorem Size.allocatable_eq : Size.allocatable = 2 ^ 60 - 1 := rfl

namespace Growth

/-- The size after so many doublings; an empty stack has one word after the first. -/
def size (c : Nat) : Nat → Nat
  | 0 => c
  | i + 1 => max (2 * size c i) 1

/-- **So many doublings are enough** for `needed` words, and no fewer from one on. -/
structure Enough (c needed k : Nat) : Prop where
  pos : 1 ≤ k
  fits : needed ≤ size c k
  least : ∀ i, 1 ≤ i → needed ≤ size c i → k ≤ i

variable {c needed limit n i j k : Nat} {g : Growth}

theorem size_succ (c i : Nat) : size c (i + 1) = max (2 * size c i) 1 := rfl

theorem strictMono_size (c : Nat) : StrictMono (size c) :=
  strictMono_nat_of_lt_succ fun i => by
    rw [size_succ]
    omega

theorem two_pow_le_size (c : Nat) : ∀ i, 2 ^ i ≤ size c (i + 1)
  | 0 => Nat.le_max_right ..
  | i + 1 => by
    have ih := two_pow_le_size c i
    rw [size_succ, Nat.pow_succ]
    omega

theorem Enough.of_lt (hlt : size c j < needed) (hle : needed ≤ size c (j + 1)) : Enough c needed (j + 1) where
  pos := Nat.succ_pos j
  fits := hle
  least _ _ hfits := Nat.succ_le_of_lt ((strictMono_size c).lt_iff_lt.1 (hlt.trans_le hfits))

/-- Before, what is needed does not fit. -/
theorem Enough.lt (h : Enough c needed k) (hi : 1 ≤ i) (hik : i < k) : size c i < needed :=
  Nat.lt_of_not_le fun hle => absurd (h.least i hi hle) (Nat.not_le_of_lt hik)

theorem Enough.unique (h : Enough c needed j) (h' : Enough c needed k) : j = k :=
  Nat.le_antisymm (h.least k h'.pos h'.fits) (h'.least j h.pos h.fits)

/-! ### The loop -/

/-- **How the loop ends**: with the least doubling that has room, from a size below the limit; with a size at the limit
before that; or with one whose double does not fit in 64 bits. -/
inductive Ends (limit needed c : Nat) : Growth → Prop
  | reaches {k : Nat} (h : Enough c needed (k + 1)) (hk : size c k < limit) (hfits : size c (k + 1) < Size.bound) :
      Ends limit needed c (.reaches (size c (k + 1)))
  | overLimit {k : Nat} (hk : limit ≤ size c k) (hshort : 1 ≤ k → size c k < needed)
      (hfits : 1 ≤ k → size c k < Size.bound) : Ends limit needed c .overLimit
  | tooLarge {k : Nat} (hk : size c k < limit) (hshort : 1 ≤ k → size c k < needed)
      (hlarge : Size.bound ≤ 2 * size c k) : Ends limit needed c .tooLarge

theorem after_ends : ∀ {n i : Nat}, 64 < i + n → (1 ≤ i → size c i < needed) → (1 ≤ i → size c i < Size.bound) →
    Ends limit needed c (after limit needed n (size c i))
  | 0, i, hn, _, hsize => by
    -- no rounds are left only after more of them than 64 bits have doublings
    obtain ⟨m, rfl⟩ : ∃ m, i = m + 64 + 1 := ⟨i - 65, by omega⟩
    have hpow : 2 ^ 64 ≤ size c (m + 64 + 1) :=
      (Nat.pow_le_pow_right (Nat.succ_pos 1) (Nat.le_add_left 64 m)).trans (two_pow_le_size c (m + 64))
    exact absurd (hsize (Nat.succ_pos _)) (Nat.not_lt_of_le hpow)
  | n + 1, i, hn, hshort, hsize => by
    unfold after
    by_cases hl : limit ≤ size c i
    · rw [if_pos hl]
      exact .overLimit hl hshort hsize
    · rw [if_neg hl]
      have hlt := Nat.lt_of_not_le hl
      by_cases hdouble : 2 * size c i < Size.bound
      · have hsize : size c (i + 1) < Size.bound := Nat.max_lt.2 ⟨hdouble, by decide⟩
        simp only [Size.double_of_lt hdouble]
        rw [← size_succ]
        split
        · next hle =>
          refine .reaches ⟨Nat.succ_pos i, hle, fun p hp hfit => ?_⟩ hlt hsize
          refine Nat.succ_le_of_lt (Nat.lt_of_not_le fun hpi => ?_)
          exact absurd ((strictMono_size c).monotone hpi) (Nat.not_le_of_lt ((hshort (hp.trans hpi)).trans_le hfit))
        · next hlt => exact after_ends (by omega) (fun _ => Nat.lt_of_not_le hlt) fun _ => hsize
      · have hlarge := Nat.le_of_not_lt hdouble
        rw [Size.double, Size.fit_of_le hlarge]
        exact .tooLarge hlt hshort hlarge

/-- **How the loop ends**, and with what. -/
theorem of_ends (limit needed c : Nat) : Ends limit needed c (of limit needed c) :=
  after_ends (i := 0) (by decide) nofun nofun

theorem Enough.le_of_short (h : Enough c needed (j + 1)) (hshort : 1 ≤ i → size c i < needed) : i ≤ j := by
  refine Nat.le_of_not_lt fun hji => ?_
  have hmono := (strictMono_size c).monotone hji
  exact absurd (h.fits.trans hmono) (Nat.not_le_of_lt (hshort (Nat.lt_of_le_of_lt (Nat.zero_le j) hji)))

/-- **The size that replaces another one**: doubled as often as needed, unless the last but one is at the limit. -/
theorem of_eq (h : Enough c needed (j + 1)) (hsize : size c (j + 1) < Size.bound) :
    of limit needed c = if limit ≤ size c j then overLimit else reaches (size c (j + 1)) := by
  have hends := of_ends limit needed c
  generalize of limit needed c = g at hends
  cases hends with
  | reaches h' hk hfits =>
    obtain rfl := Nat.succ.inj (h'.unique h)
    rw [if_neg (Nat.not_le_of_lt hk)]
  | overLimit hk hshort _ => rw [if_pos (hk.trans ((strictMono_size c).monotone (h.le_of_short hshort)))]
  | tooLarge hk hshort hlarge =>
    have hnext := (strictMono_size c).monotone (Nat.succ_le_succ (h.le_of_short hshort))
    exact absurd (hlarge.trans ((Nat.le_max_left ..).trans hnext)) (Nat.not_le_of_lt hsize)

theorem enough_of_reaches (h : of limit needed c = reaches n) :
    ∃ j, Enough c needed (j + 1) ∧ n = size c (j + 1) ∧ size c j < limit := by
  have hends := of_ends limit needed c
  rw [h] at hends
  cases hends with
  | reaches hk hlimit hfits => exact ⟨_, hk, rfl, hlimit⟩

theorem needed_le_of_reaches (h : of limit needed c = reaches n) : needed ≤ n := by
  obtain ⟨j, hj, rfl, -⟩ := enough_of_reaches h
  exact hj.fits

theorem eq_of_reaches (h : of limit needed c = reaches n) : n = max (2 * c) 1 ∨ max (2 * c) 1 < needed := by
  obtain ⟨j, hj, rfl, -⟩ := enough_of_reaches h
  refine or_iff_not_imp_right.2 fun hle => ?_
  obtain rfl := Nat.le_zero.1 (Nat.le_of_succ_le_succ (hj.least 1 (Nat.le_refl 1) (Nat.le_of_not_lt hle)))
  rfl

/-! ### Doublings past 64 bits -/

/-- **The doublings that the loop makes fit in 64 bits.** -/
def Fits (limit needed c : Nat) : Prop :=
  ∀ i, size c i < limit → (1 ≤ i → size c i < needed) → 2 * size c i < Size.bound

theorem Fits.of_limit (hl : limit ≤ 2 ^ 63) : Fits limit needed c := fun i hi _ => by
  rw [Size.bound_eq]
  omega

theorem Fits.of_needed (hc : c < 2 ^ 63) (hn : needed ≤ 2 ^ 63) : Fits limit needed c := by
  intro i _ hi
  rw [Size.bound_eq]
  rcases Nat.eq_zero_or_pos i with rfl | hpos
  · have : size c 0 = c := rfl
    omega
  · have := hi hpos
    omega

theorem two_mul_size_lt (hk : size c k < Size.bound) (hik : i < k) : 2 * size c i < Size.bound :=
  ((Nat.le_max_left ..).trans ((strictMono_size c).monotone (Nat.succ_le_of_lt hik))).trans_lt hk

/-- **The loop comes to a double that does not fit exactly if there is one among those it makes.** -/
theorem of_eq_tooLarge_iff : of limit needed c = tooLarge ↔ ¬ Fits limit needed c := by
  have hends := of_ends limit needed c
  generalize of limit needed c = g at hends
  cases hends with
  | reaches h hk hfits =>
    refine iff_of_false nofun (not_not.2 fun i _ hshort => ?_)
    exact two_mul_size_lt hfits (Nat.lt_succ_of_le (h.le_of_short hshort))
  | @overLimit k hk _ hfits =>
    refine iff_of_false nofun (not_not.2 fun i hi _ => ?_)
    have hik : i < k := (strictMono_size c).lt_iff_lt.1 (hi.trans_le hk)
    exact two_mul_size_lt (hfits (Nat.succ_le_of_lt (Nat.zero_lt_of_lt hik))) hik
  | tooLarge hk hshort hlarge =>
    exact iff_of_true rfl fun hfits => absurd (hfits _ hk hshort) (Nat.not_lt_of_le hlarge)

theorem lt_of_tooLarge (h : of limit needed c = tooLarge) (hc : 2 * c < Size.bound) : max (2 * c) 1 < needed := by
  have hends := of_ends limit needed c
  rw [h] at hends
  cases hends with
  | @tooLarge k hk hshort hlarge =>
    cases k with
    | zero => exact absurd hc (Nat.not_lt_of_le hlarge)
    | succ k =>
      have hmono := (strictMono_size c).monotone (Nat.succ_le_succ (Nat.zero_le k))
      exact hmono.trans_lt (hshort (Nat.succ_pos k))

end Growth

end FiberStacks
