import FiberStacks.Proofs.Growth.Spared
import FiberStacks.Proofs.Runs.Deeds

/-!
# How far stacks grow

The limit of a domain is compared with the size of a stack before it is doubled.  So a stack that replaces another one
can be larger than the limit; it stays below twice the limit, and it stays within it if what is needed fits a size that
does, or if doubling leads to the limit itself.

* `Growth.Doubles` — a size that replaces another one;
* `Doubles.lt_twice`, `Doubles.limit_lt_iff`, `Doubles.le_of_size` — **where it is, seen from the limit**;
* `Registers.Replaced` — the current stack stays, or a larger one replaces it;
* `Errand.asks` — the calls that make room, and for how many words;
* `Machine.growth_beyond_limit_iff` — **how far a stack grows, whatever has been done before**.
-/

namespace FiberStacks

open FiberStacks.Action

/-! ### Sizes and the limit -/

namespace Growth

/-- **A size that replaces another one**: it is doubled until `needed` words fit, and the size before the last doubling
is below the limit. -/
def Doubles (c needed limit n : Nat) : Prop := ∃ k, Enough c needed k ∧ n = size c k ∧ size c (k - 1) < limit

namespace Doubles

variable {c needed limit n i : Nat}

theorem lt (h : Doubles c needed limit n) : c < n := by
  obtain ⟨k, hk, rfl, -⟩ := h
  exact strictMono_size c hk.pos

theorem lt_twice (h : Doubles c needed limit n) : n < 2 * limit := by
  obtain ⟨k, hk, rfl, hlt⟩ := h
  obtain ⟨j, rfl⟩ := Nat.exists_eq_add_of_le' hk.pos
  rw [Nat.add_sub_cancel] at hlt
  rw [size_succ]
  omega

/-- **The limit is passed** where no size within it has room for what is needed. -/
theorem limit_lt_iff (h : Doubles c needed limit n) :
    limit < n ↔ ∀ i, 1 ≤ i → needed ≤ size c i → limit < size c i := by
  obtain ⟨k, hk, rfl, -⟩ := h
  refine ⟨fun hlt i hi hfits => hlt.trans_le ?_, fun hall => hall k hk.pos hk.fits⟩
  exact (strictMono_size c).monotone (hk.least i hi hfits)

theorem le_of_size (h : Doubles c needed (size c i) n) : n ≤ size c i := by
  obtain ⟨k, hk, rfl, hlt⟩ := h
  have hki : k - 1 < i := (strictMono_size c).lt_iff_lt.1 hlt
  exact (strictMono_size c).monotone (Nat.le_of_pred_lt hki)

end Doubles

end Growth

/-! ### Calls that make room -/

theorem Saves.owner_own {s : Active} {r : Registers} {x y : Segment} {q : Remembered} (hs : Saves s r x y q)
    (hm : s.world.heap.MarksOld) : x.owner = none ∨ x.owner = some s.domain.id := by
  rcases hs.mark with ⟨hyoung | hown, -, -⟩ | ⟨-, hnone, -⟩
  · refine .inl (Option.eq_none_iff_forall_ne_some.2 fun o ho => ?_)
    have hold := hm r.current o (by rw [Heap.owner?_of_stack? hs.stack, ho])
    simp [Heap.isYoung, hold] at hyoung
  · exact .inr hown
  · exact .inl hnone

/-- **The current stack stays, or a larger one replaces it.** -/
inductive Registers.Replaced (r : Registers) (needed limit : Nat) (r' : Registers) : Prop
  | stays (hcurrent : r'.current = r.current) (hcapacity : r'.capacity = r.capacity)
  | grows (h : Growth.Doubles r.capacity needed limit r'.capacity)

/-- What a call that makes room leaves in the registers. -/
def Active.MakesRoom (t : Active) (r : Registers) (needed limit : Nat) : Prop :=
  ∃ r', t.domain.registers = some r' ∧ r.Replaced needed limit r'

variable {s t : Active} {r : Registers} {x y : Segment} {q : Remembered} {needed limit n : Nat} {c : StackCall}

theorem Active.MakesRoom.of_registers (h : t.domain.registers = some r) : t.MakesRoom r needed limit :=
  ⟨r, h, .stays rfl rfl⟩

namespace Act

theorem bookkeeping_registers : Bookkeeping fun s t => t.domain.registers = s.domain.registers where
  trans h₁ h₂ := h₂.trans h₁
  of_alike h := h.registers
  alloc _ _ _ := rfl

/-- **Growth that returns**, with a new stack or with the reason why there is none. -/
theorem tryGrow_makesRoom (required : Nat) (saved : List Word) (hs : s.Settled) (hr : s.domain.registers = some r) :
    (tryGrow required saved).wp s (fun _ t => t.MakesRoom r (r.used + required) s.domain.limit)
      fun e _ => e ≠ .raised := by
  refine wp_mono (wp_and (tryGrow_ends required saved s) (tryGrow_spared required saved s)) ?_ fun _ _ h => h.2
  rintro ⟨res, saved'⟩ t ⟨⟨r', x, y, q, hsaves, hend⟩, hspared⟩
  obtain rfl := Option.some.inj (hsaves.registers.symm.trans hr)
  cases res with
  | error e =>
    obtain ⟨-, -, hspared⟩ := hspared e rfl
    exact .of_registers (by rw [hspared.domain]; exact hr)
  | ok new =>
    cases hend with
    | @fits n z new' h' _ _ h hn hz ha hrun =>
      obtain ⟨x', hx'⟩ := hs.running hr
      obtain rfl := Option.some.inj (hsaves.stack.symm.trans hx'.stack)
      rw [hsaves.growth_eq, ← hx'.capacity] at h
      obtain ⟨j, hj, rfl, hlimit⟩ := Growth.enough_of_reaches h
      have hdoubles : Growth.Doubles r'.capacity (r'.used + required) s.domain.limit
          (Growth.size r'.capacity (j + 1)) := ⟨j + 1, hj, rfl, hlimit⟩
      have hused : r'.used ≤ Growth.size r'.capacity (j + 1) :=
        hsaves.used_le.trans (hx'.capacity.symm.le.trans hdoubles.lt.le)
      let u := ((s.stored r'.current y q).noted (.growing (Growth.size r'.capacity (j + 1)))).adopted h'
      obtain ⟨t', hrun', hgrown⟩ := settle_grown (u := u) hsaves hs.heap.budgeted.balanced
        (hsaves.owner_own hs.heap.marksOld) hz hused ha rfl rfl
      obtain ⟨-, rfl⟩ := Prod.mk.inj (hrun.symm.trans hrun')
      exact ⟨_, by rw [hgrown.domain], .grows hdoubles⟩

theorem grow_makesRoom (required : Nat) (saved : List Word) (hs : s.Settled) (hr : s.domain.registers = some r) :
    (grow required saved).wp s (fun _ t => t.MakesRoom r (r.used + required) s.domain.limit)
      fun e t => e = .raised → t.MakesRoom r (r.used + required) s.domain.limit := by
  unfold grow
  refine wp_bind_of (tryGrow_makesRoom required saved hs hr) ?_ fun _ _ h he => absurd he h
  rintro ⟨res, saved'⟩ u ⟨r', hr', hreplaced⟩
  have hkept := bookkeeping_registers.relates (beside_orRaise res) u
  rw [wp_bind]
  exact wp_mono hkept (fun _ _ h => ⟨r', h.trans hr', hreplaced⟩) fun _ _ h _ => ⟨r', h.trans hr', hreplaced⟩

theorem ensure_makesRoom (required : Nat) (hs : s.Settled) (hr : s.domain.registers = some r) :
    (ensure required).wp s (fun _ t => t.MakesRoom r (r.used + required) s.domain.limit)
      fun e t => e = .raised → t.MakesRoom r (r.used + required) s.domain.limit :=
  wp_ensure_of_grow (grow_makesRoom required [] hs hr) (.of_registers hr)

theorem maybeExpand_makesRoom (ws : List Word) (hs : s.Settled) (hr : s.domain.registers = some r) :
    (maybeExpand ws).wp s (fun _ t => t.MakesRoom r (r.used + 0) s.domain.limit)
      fun e t => e = .raised → t.MakesRoom r (r.used + 0) s.domain.limit :=
  wp_maybeExpand_of_grow (grow_makesRoom 0 ws hs hr) (.of_registers hr) fun _ _ hne he => absurd he hne

theorem push_makesRoom (w : Word) (hs : s.Settled) (hr : s.domain.registers = some r) :
    (push w).wp s (fun _ t => t.MakesRoom r (r.used + 1) s.domain.limit)
      fun e t => e = .raised → t.MakesRoom r (r.used + 1) s.domain.limit := by
  refine wp_push_of_ensure (ensure_makesRoom 1 hs hr) ?_ fun _ _ hne he => absurd he hne
  rintro t u r₁ ⟨r', hr', hreplaced⟩ hr₁ hu
  obtain rfl := Option.some.inj (hr'.symm.trans hr₁)
  refine ⟨_, hu, ?_⟩
  cases hreplaced with
  | stays hcurrent hcapacity => exact .stays hcurrent hcapacity
  | grows h => exact .grows h

end Act

/-! ### Machines -/

namespace Machine

/-- **The calls that make room**, and for how many words besides those in use. -/
def Errand.asks : Errand → Option Nat
  | call (.push _) => some 1
  | call (.ensure required) | call (.grow required _) | tryGrow required _ => some required
  | call (.maybeExpand _) => some 0
  | _ => none

theorem Errand.makesRoom {e : Errand} (he : e.asks = some n) (hs : s.Settled) (hr : s.domain.registers = some r) :
    e.act.wp s (fun _ t => t.MakesRoom r (r.used + n) s.domain.limit)
      fun stop t => stop = .raised → t.MakesRoom r (r.used + n) s.domain.limit := by
  cases e with
  | call c =>
    refine (wp_map ..).2 ?_
    cases c with
    | push w =>
      obtain rfl := Option.some.inj he
      exact Act.push_makesRoom w hs hr
    | ensure required =>
      obtain rfl := Option.some.inj he
      exact Act.ensure_makesRoom required hs hr
    | grow required saved =>
      obtain rfl := Option.some.inj he
      exact (wp_bind ..).2 (Act.grow_makesRoom required saved hs hr)
    | maybeExpand ws =>
      obtain rfl := Option.some.inj he
      exact (wp_bind ..).2 (Act.maybeExpand_makesRoom ws hs hr)
    | _ => cases he
  | tryGrow required saved =>
    obtain rfl := Option.some.inj he
    exact (wp_map ..).2 (wp_mono (Act.tryGrow_makesRoom required saved hs hr) (fun _ _ h => h)
      fun _ _ h hraised => absurd hraised h)
  | _ => cases he

variable {m m' : Machine} {d : DomainId} {x x' : Domain} {e : Errand} {out : Outcome} {r' : Registers}

/-- **How far a stack grows, whatever has been done before.**  Within a budget, a call of a domain for `n` more words
that returns or raises leaves the current stack, or one that is doubled until they fit, from a capacity below the limit.
Its capacity is less than twice the limit.  It is beyond the limit exactly if all capacities are that doubling leads to
and that have room for the words; so it never is if doubling leads to the limit itself. -/
theorem growth_beyond_limit_iff {config : Config} {layout : Layout} {maxWords minorLimit : Nat}
    (hm : Arises config layout maxWords minorLimit m) (hbudget : maxWords < 2 ^ 32) (hx : m.domain? d = some x)
    (hr : x.registers = some r) (he : e.asks = some n) (hp : m.perform (.ask d e) = some (out, m'))
    (hgo : out.goesOn = true) :
    ∃ x' r', m'.domain? d = some x' ∧ x'.registers = some r' ∧
      (r'.current = r.current ∧ r'.capacity = r.capacity ∨
        Growth.Doubles r.capacity (r.used + n) x.limit r'.capacity ∧ r'.capacity < 2 * x.limit ∧
        (x.limit < r'.capacity ↔
          ∀ i, 1 ≤ i → r.used + n ≤ Growth.size r.capacity i → x.limit < Growth.size r.capacity i) ∧
        ((∃ i, x.limit = Growth.size r.capacity i) → r'.capacity ≤ x.limit)) := by
  have hplace := hm.inPlace hbudget
  have hs : Active.Settled ⟨x, m.world⟩ := ⟨hplace.heap, hplace.seated x (List.mem_of_find?_eq_some hx)⟩
  let needed := r.used + n
  have hstep : ∀ y, m.domain? d = some y →
      e.act.wp ⟨y, m.world⟩ (fun _ t => Leaves ⟨y, m.world⟩ t ∧ t.MakesRoom r needed y.limit)
        fun stop t => stop = .raised → Leaves ⟨y, m.world⟩ t ∧ t.MakesRoom r needed y.limit := fun y hy => by
    obtain rfl := Option.some.inj (hx.symm.trans hy)
    exact wp_mono (wp_and (e.leaves _) (e.makesRoom he hs hr)) (fun _ _ h => h)
      fun _ _ h hraised => ⟨h.1 hraised, h.2 hraised⟩
  obtain ⟨res, y, others, t, hy, hact, hleaves, r', hr', hreplaced⟩ :=
    exists_acting hplace.toSound hstep (continued_of_perform hp hgo)
  obtain rfl := Option.some.inj (hx.symm.trans hy)
  have hid : t.domain.id = x.id := (hleaves.marked hplace.freeListed).id
  have hx' : m'.domain? d = some t.domain := by
    have hsound := (hplace.follows (.event (e := .ask d e) trivial hp hgo)).toSound
    rw [← id_of_domain? hx, ← hid]
    exact hsound.domain?_of_mem ((hact.domains hid).mem_iff.2 List.mem_cons_self)
  refine ⟨t.domain, r', hx', hr', ?_⟩
  cases hreplaced with
  | stays hcurrent hcapacity => exact .inl ⟨hcurrent, hcapacity⟩
  | grows h =>
    refine .inr ⟨h, h.lt_twice, h.limit_lt_iff, ?_⟩
    rintro ⟨i, hlimit⟩
    rw [hlimit] at h ⊢
    exact h.le_of_size

/-- Main stacks of sixteen words, which may grow to twenty-four. -/
def narrow : Config := { initStackWords := 16, maxStackWords := 24 }

theorem grows_narrow : ∃ m m' x x' r r', Arises narrow .bytecode 100 100 m ∧ m.domain? ⟨1⟩ = some x ∧
    x.registers = some r ∧ m.perform (.ask ⟨1⟩ (.call (.grow 25 []))) = some (.done none, m') ∧
    m'.domain? ⟨1⟩ = some x' ∧ x'.registers = some r' ∧ (r.used, r.capacity, x.limit) = (0, 16, 24) ∧
    r'.capacity = 32 := by
  have hseen : ((initial (.initial narrow .bytecode (.empty 100 100))).chronicle [.create, .ask ⟨1⟩ .start]).bind
      (fun p => (p.2.perform (.ask ⟨1⟩ (.call (.grow 25 [])))).map fun q => (decide (∀ r ∈ p.1, r.Fair), q.1,
        (p.2.domain? ⟨1⟩).bind fun x => x.registers.map fun r => (r.used, r.capacity, x.limit),
        (q.2.domain? ⟨1⟩).bind fun x => x.registers.map Registers.capacity)) =
      some (true, .done none, some (0, 16, 24), some 32) := by
    rfl
  obtain ⟨⟨rs, m⟩, hc, hseen⟩ := Option.bind_eq_some_iff.1 hseen
  obtain ⟨⟨out, m'⟩, hp, hseen⟩ := Option.map_eq_some_iff.1 hseen
  obtain ⟨hfair, hseen⟩ := Prod.mk.inj hseen
  obtain ⟨rfl, hseen⟩ := Prod.mk.inj hseen
  obtain ⟨hbefore, hafter⟩ := Prod.mk.inj hseen
  obtain ⟨x, hx, hbefore⟩ := Option.bind_eq_some_iff.1 hbefore
  obtain ⟨r, hr, hbefore⟩ := Option.map_eq_some_iff.1 hbefore
  obtain ⟨x', hx', hafter⟩ := Option.bind_eq_some_iff.1 hafter
  obtain ⟨r', hr', hafter⟩ := Option.map_eq_some_iff.1 hafter
  have harises : Arises narrow .bytecode 100 100 m := ⟨false, follows_of_chronicle hc (of_decide_eq_true hfair)⟩
  exact ⟨m, m', x, x', r, r', harises, hx, hr, hp, hx', hr', hbefore, hafter⟩

/-- The capacity is the sixteen words doubled once, and no capacity within the limit has room. -/
theorem growth_beyond_limit_iff_narrow : ∃ m m' x x' r r', Arises narrow .bytecode 100 100 m ∧ m.domain? ⟨1⟩ = some x ∧
    x.registers = some r ∧ m.perform (.ask ⟨1⟩ (.call (.grow 25 []))) = some (.done none, m') ∧
    m'.domain? ⟨1⟩ = some x' ∧ x'.registers = some r' ∧ x.limit = 24 ∧ r'.capacity = 32 ∧
    Growth.Doubles 16 25 24 32 ∧ 32 < 2 * 24 ∧ ∀ i, 1 ≤ i → 25 ≤ Growth.size 16 i → 24 < Growth.size 16 i := by
  obtain ⟨m, m', x, x', r, r', hm, hx, hr, hp, hx', hr', hbefore, hafter⟩ := grows_narrow
  obtain ⟨y, r₁, hy, hr₁, hgrown⟩ := growth_beyond_limit_iff hm (by decide) hx hr rfl hp rfl
  obtain rfl := Option.some.inj (hx'.symm.trans hy)
  obtain rfl := Option.some.inj (hr'.symm.trans hr₁)
  obtain ⟨hused, hbefore⟩ := Prod.mk.inj hbefore
  obtain ⟨hcap, hlimit⟩ := Prod.mk.inj hbefore
  rw [hused, hcap, hlimit, hafter] at hgrown
  rcases hgrown with ⟨-, hsame⟩ | ⟨hdoubles, htwice, hbeyond, -⟩
  · cases hsame
  · exact ⟨m, m', x, x', r, r', hm, hx, hr, hp, hx', hr', hlimit, hafter, hdoubles, htwice, hbeyond.1 (by decide)⟩

/-- **A stack grows beyond the limit** of its domain. -/
theorem not_growth_within_limit : ¬ ∀ (config : Config) (layout : Layout) (maxWords minorLimit : Nat) (m m' : Machine)
    (d : DomainId) (x x' : Domain) (r r' : Registers) (e : Errand) (n : Nat) (out : Outcome),
      Arises config layout maxWords minorLimit m → maxWords < 2 ^ 32 → m.domain? d = some x → x.registers = some r →
      e.asks = some n → m.perform (.ask d e) = some (out, m') → out.goesOn = true → m'.domain? d = some x' →
      x'.registers = some r' → r.capacity < r'.capacity → r'.capacity ≤ x.limit := by
  intro h
  obtain ⟨m, m', x, x', r, r', hm, hx, hr, hp, hx', hr', hbefore, hafter⟩ := grows_narrow
  obtain ⟨-, hbefore⟩ := Prod.mk.inj hbefore
  obtain ⟨hcap, hlimit⟩ := Prod.mk.inj hbefore
  have hle := h _ _ _ _ m m' _ x x' r r' _ 25 _ hm (by decide) hx hr rfl hp rfl hx' hr' (by rw [hcap, hafter]; decide)
  rw [hlimit, hafter] at hle
  exact absurd hle (by decide)

end Machine

end FiberStacks
