import FiberStacks.Proofs.Growth.Exact
import FiberStacks.Proofs.Growth.Unread

/-!
# The arithmetic of the stack calls

Sums and products of sizes have to fit in 64 bits.  Amounts below `2 ^ 63` leave all sums below `2 ^ 64`, and twice the
threshold.  Two products can be too large.  A size is doubled while it is below the limit and below what is needed,
which takes it past 64 bits if both are above `2 ^ 63`.  And an entry of the log tells a size in kibibytes, from a
number of bytes that does not fit from `2 ^ 61` words on; it is worked out only where such entries are written.

* `Act.tryGrow_productTooLarge_iff` — **where growth stops for a product**;
* `Act.Reckons` — what the stack calls of a domain compute;
* `Act.reckons` — **it is what numbers without bound come to**, but for these two products.
-/

namespace FiberStacks

open FiberStacks.Action

theorem Size.bound_le_bytes_iff {n : Nat} : Size.bound ≤ n * wordBytes ↔ 2 ^ 61 ≤ n := by
  rw [Size.bound_eq, wordBytes]
  omega

theorem World.not_canNote_iff {w : World} {n : Nat} : ¬ w.CanNote n ↔ w.verbose = true ∧ 2 ^ 61 ≤ n := by
  rw [CanNote, Classical.not_imp, Nat.not_lt, Size.bound_le_bytes_iff]

namespace Act

variable {s : Active} {r : Registers} {x : Segment} {required : Nat}

theorem add_lt {m n : Nat} (hm : m ≤ 2 ^ 63) (hn : n < 2 ^ 63) : m + n < Size.bound := by
  rw [Size.bound_eq]
  omega

/-! ### Growth -/

/-- **Growth stops for no sum, and for a product** if a size does not fit in 64 bits, or its bytes where they are worked
out. -/
theorem tryGrow_productTooLarge_iff (saved : List Word) (hr : Running s r x) (hb : s.world.heap.Balanced)
    (hblock : s.domain.blocking = 0) (hx : x.owner = none ∨ x.owner = some s.domain.id)
    (hsum : s.domain.used + required < Size.bound) :
    (¬ ∃ t, tryGrow required saved s = (.error (.fault .sumTooLarge), t)) ∧
      ((∃ t, tryGrow required saved s = (.error (.fault .productTooLarge), t)) ↔
        Growth.of s.domain.limit (s.domain.used + required) x.capacity = .tooLarge ∨
        ∃ n, Growth.of s.domain.limit (s.domain.used + required) x.capacity = .reaches n ∧ ¬ s.world.CanNote n) := by
  rw [Domain.used_of_registers hr.registers] at hsum ⊢
  obtain ⟨y, q, res, t, hs, hrun, hend⟩ := exists_growthEnd required saved hblock hr hx
  rw [hrun, ← hs.growth_eq]
  cases hend with
  | sumTooLarge h => exact absurd hsum (Nat.not_lt_of_le (hs.used ▸ h))
  | overLimit h => exact ⟨by simp, iff_of_false (by simp) (by simp [h])⟩
  | tooLarge h => exact ⟨by simp, iff_of_true ⟨_, rfl⟩ (.inl h)⟩
  | unwritten h hn => exact ⟨by simp, iff_of_true ⟨_, rfl⟩ (.inr ⟨_, h, hn⟩)⟩
  | @huge n h hnote _ =>
    have hnote : s.world.CanNote n := hnote
    exact ⟨by simp, iff_of_false (by simp) (by simp [h, hnote])⟩
  | full h hn _ => exact ⟨by simp, iff_of_false (by simp) (by simp [h, World.canNote_of_le hn])⟩
  | @fits n z new h' res t h hn hz ha hset =>
    have hused : r.used ≤ n := hs.used ▸ (Nat.le_add_right ..).trans (Growth.needed_le_of_reaches h)
    obtain ⟨t', hset', -⟩ := settle_grown
      (u := ((s.stored r.current y q).noted (.growing n)).adopted h') hs hb hx hz hused ha rfl rfl
    obtain ⟨rfl, rfl⟩ := Prod.mk.inj (hset.symm.trans hset')
    exact ⟨by simp, iff_of_false (by simp) (by simp [h, World.canNote_of_le hn])⟩

theorem log_of_tryGrow {saved saved' : List Word} {new : BlockId} {t : Active}
    (hrun : tryGrow required saved s = (.ok (.ok new, saved'), t)) :
    ∃ r x n log, s.domain.registers = some r ∧ s.world.heap.stack? r.current = some x ∧
      Growth.of s.domain.limit (s.domain.used + required) x.capacity = .reaches n ∧
      t.world.log = s.world.log ++ .growing n :: log ∧ n * wordBytes < Size.bound := by
  obtain ⟨r, x, y, q, hs, hend⟩ := (wp_of_ok hrun).1 (tryGrow_ends required saved s)
  cases hend with
  | @fits n z new h' res t h hn hz ha hset =>
    obtain ⟨added, hlog⟩ := (unread_settle r.current y.owner (s.stored r.current y q).domain.id new saved).log
      (((s.stored r.current y q).noted (.growing n)).adopted h')
    rw [hset] at hlog
    obtain ⟨asked, hasked⟩ : ∃ asked, (((s.stored r.current y q).noted (.growing n)).adopted h').world.log =
        s.world.log ++ [.growing n] ++ asked := ⟨_, rfl⟩
    rw [hasked, List.append_assoc, List.append_assoc] at hlog
    rw [hs.growth_eq, ← Domain.used_of_registers hs.registers] at h
    exact ⟨r, x, n, asked ++ added, hs.registers, hs.stack, h, hlog,
      Nat.lt_of_le_of_lt (Nat.mul_le_mul_right _ hn) (by decide)⟩

/-! ### All calls -/

/-- **What the stack calls of a domain compute**, against numbers without bound. -/
structure Reckons (s : Active) : Prop where
  /-- A fiber has the words asked for and its context, if memory of that size can be asked for. -/
  fiber : ∀ words < 2 ^ 63, ∀ layout h,
    if contextWords + words ≤ Size.allocatable then
      ∃ y, Segment.fiber layout words h = .ok y ∧ y.capacity = contextWords + words
    else Segment.fiber layout words h = .error .sizeTooLarge
  /-- Growth that is refused was asked for the words in use and the words required. -/
  refused : ∀ required < 2 ^ 63, ∀ saved saved' n l t,
    tryGrow required saved s = (.ok (.error (.stackOverflow n l), saved'), t) → n = s.domain.used + required
  /-- Growth that succeeds has gone from the size of the current stack to the one it found, and the figure noted of
  that is worked out in 64 bits. -/
  grown : ∀ required < 2 ^ 63, ∀ saved saved' new t, tryGrow required saved s = (.ok (.ok new, saved'), t) →
    ∃ r x n log, s.domain.registers = some r ∧ s.world.heap.stack? r.current = some x ∧
      Growth.of s.domain.limit (s.domain.used + required) x.capacity = .reaches n ∧
      t.world.log = s.world.log ++ .growing n :: log ∧ n * wordBytes < Size.bound
  /-- **Growth stops for a product in two cases only**, and for no sum: a size does not fit in 64 bits, or one of
  `2 ^ 61` words or more is to be written. -/
  stops : ∀ r x, Running s r x → s.world.heap.Balanced → s.domain.blocking = 0 →
    (x.owner = none ∨ x.owner = some s.domain.id) → ∀ required < 2 ^ 63, ∀ saved,
    (¬ ∃ t, tryGrow required saved s = (.error (.fault .sumTooLarge), t)) ∧
      ((∃ t, tryGrow required saved s = (.error (.fault .productTooLarge), t)) ↔
        Growth.of s.domain.limit (s.domain.used + required) x.capacity = .tooLarge ∨
        ∃ n, Growth.of s.domain.limit (s.domain.used + required) x.capacity = .reaches n ∧
          s.world.verbose = true ∧ 2 ^ 61 ≤ n)
  /-- The sizes it goes through are exact, and end short of what is needed exactly if a doubling does not fit. -/
  doubles : ∀ required c,
    Growth.Ends s.domain.limit (s.domain.used + required) c
        (Growth.of s.domain.limit (s.domain.used + required) c) ∧
      (Growth.of s.domain.limit (s.domain.used + required) c = .tooLarge ↔
        ¬ Growth.Fits s.domain.limit (s.domain.used + required) c)
  /-- All doublings fit unless both the limit and what is needed are beyond `2 ^ 63`. -/
  fits : ∀ required, ∀ c < 2 ^ 63, s.domain.limit ≤ 2 ^ 63 ∨ s.domain.used + required ≤ 2 ^ 63 →
    Growth.Fits s.domain.limit (s.domain.used + required) c
  /-- A stack is expanded if fewer words are free than twice the threshold. -/
  expanded : ∀ registers, maybeExpand registers s =
    if s.domain.headroom < 2 * s.world.config.stackThresholdWords then (Prod.snd <$> grow 0 registers) s
    else (.ok registers, s)
  /-- The limit is at least what is in use and the threshold.  If it changes, that is noted, and the call stops if the
  entry is written and about `2 ^ 61` words or more. -/
  limited : ∀ limit, changeLimit limit s =
    let n := max limit (s.domain.used + s.world.config.stackThresholdWords)
    if n = s.domain.limit then (.ok (), s)
    else if s.world.verbose = true ∧ 2 ^ 61 ≤ n then (.error (.fault .productTooLarge), s)
    else (.ok (), ⟨{ s.domain with limit := n }, s.world.note (.limitChanged n)⟩)
  /-- **Writing the log makes no other difference** to the calls. -/
  audible : (∀ words h, Audible (newStackOf words h)) ∧ (∀ required saved, Audible (tryGrow required saved)) ∧
    (∀ required saved, Audible (grow required saved)) ∧ (∀ required, Audible (ensure required)) ∧
    (∀ registers, Audible (maybeExpand registers)) ∧ ∀ limit, Audible (changeLimit limit)

/-- **The arithmetic of the stack calls is exact**, where stack pointers are signed numbers of 64 bits and the threshold
and the amounts are below `2 ^ 63`, but for doublings past 64 bits and the bytes of sizes from `2 ^ 61` words on. -/
theorem reckons (hused : s.domain.used ≤ 2 ^ 63) (hthreshold : s.world.config.stackThresholdWords < 2 ^ 63) :
    Reckons s where
  fiber words hw layout h := by
    split
    · next hle => exact Segment.exists_fiber layout h hle
    · next hlt =>
      rw [Segment.fiber_of_lt layout h (Nat.lt_of_not_le hlt), if_pos]
      rw [Size.bound_eq, contextWords]
      omega
  refused required _ saved saved' n l t hrun := by
    obtain ⟨r, x, y, q, hs, hend⟩ := (wp_of_ok hrun).1 (tryGrow_ends required saved s)
    cases hend with
    | overLimit h => rw [Domain.used_of_registers hs.registers, hs.used]
    | fits _ _ _ _ hrun => cases (wp_of_ok hrun).1 (settle_unraised ..)
  grown _ _ _ _ _ _ hrun := log_of_tryGrow hrun
  stops r x hr hb hblock hx required hreq saved := by
    simp only [← World.not_canNote_iff]
    exact tryGrow_productTooLarge_iff saved hr hb hblock hx (add_lt hused hreq)
  doubles required c := ⟨Growth.of_ends .., Growth.of_eq_tooLarge_iff⟩
  fits required c hc := fun
    | .inl hl => .of_limit hl
    | .inr hn => .of_needed hc hn
  expanded registers := by
    have hdouble : 2 * s.world.config.stackThresholdWords < Size.bound := by
      rw [Size.bound_eq]
      omega
    unfold maybeExpand
    rw [bind_of_ok (show config s = (.ok s.world.config, s) from rfl), Size.double_of_lt hdouble]
    change (if s.domain.headroom < 2 * s.world.config.stackThresholdWords then _ else _ : Act _) s = _
    split
    · rfl
    · rfl
  limited limit := by
    unfold changeLimit
    rw [bind_of_ok (show domain s = (.ok s.domain, s) from rfl),
      bind_of_ok (show config s = (.ok s.world.config, s) from rfl), Size.add_of_lt (add_lt hused hthreshold),
      bind_of_ok (show check (.ok _) s = (.ok _, s) from rfl)]
    generalize max limit (s.domain.used + s.world.config.stackThresholdWords) = n
    simp only [ne_eq, ← Size.bound_le_bytes_iff]
    by_cases h : n = s.domain.limit
    · rw [if_neg (not_not.2 h), if_pos h, h]
      rfl
    · rw [if_pos h, if_neg h]
      split
      · next hbig => exact bind_of_error ((noteSize_eq ..).trans (if_pos hbig))
      · next hfits => exact bind_of_ok ((noteSize_eq ..).trans (if_neg hfits))
  audible := by
    have hP := founding_audible
    exact ⟨hP.newStackOf, audible_tryGrow, hP.grow audible_tryGrow, hP.ensure audible_tryGrow,
      hP.maybeExpand audible_tryGrow, hP.changeLimit (audible_noteSize fun _ => rfl)⟩

/-- A domain that has not started, with the entries of the level debug written or not. -/
def unstarted (verbose : Bool) : Active :=
  ⟨.fresh ⟨1⟩ 100, { World.initial {} .bytecode (.empty 100 100) with verbose }⟩

/-- The calls of that domain. -/
theorem reckons_fresh : Reckons (unstarted true) := reckons (by decide) (by decide)

/-- To set a limit of `2 ^ 61` words stops only where the entry about it is written.  And with a limit and a need beyond
`2 ^ 63`, a size of 16 words is doubled up to one that 64 bits do not hold. -/
theorem not_exact :
    (changeLimit (2 ^ 61) (unstarted false)).1 = .ok () ∧
      (changeLimit (2 ^ 61) (unstarted true)).1 = .error (.fault .productTooLarge) ∧
      Growth.of (2 ^ 63 + 4) (2 ^ 63 + 4) 16 = .tooLarge := by
  refine ⟨rfl, rfl, ?_⟩
  decide +kernel

end Act

end FiberStacks
