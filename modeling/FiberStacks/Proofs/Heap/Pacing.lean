import FiberStacks.Proofs.Heap.Map

/-!
# The pace of minor collections

A heap counts the words of the blocks that start young.  Once the collector is ready it asks for a collection as soon as
the count passes the limit, and the count starts again.  Whatever else is done to the heap has no part in this.

* `Move`, `course` — operations one after another, and word that the collector is ready;
* `Beat`, `beats` — what of a course the count looks at: the sizes of young blocks, and that word;
* `Pace` — the count as a machine of its own; `Pace.potential_step` — **what a request costs**;
* `pace_course` — the heap is that machine, run on the beats;
* `course_paced` — **no collection too early, none withheld, and none too soon after another**.
-/

namespace FiberStacks.Heap

/-! ### Moves and beats -/

/-- An operation, or word that the collector is ready. -/
inductive Move where
  | serve (op : Op)
  | ready
deriving DecidableEq, Repr

def move (h : Heap) : Move → Heap
  | .serve op => (h.serve op).2
  | .ready => h.markReady

def course (h : Heap) (ms : List Move) : Heap := ms.foldl move h

/-- **What the count of young words looks at.** -/
inductive Beat where
  /-- A block of so many words starts young. -/
  | young (words : Nat)
  | ready
deriving DecidableEq, Repr

def Beat.words : Beat → Nat
  | young n => n
  | ready => 0

def Beat.total (bs : List Beat) : Nat := (bs.map Beat.words).sum

/-- The beat of a move, if it has one.  Blocks that start old, allocations that fail, frees and promotions have none. -/
def beat? (h : Heap) : Move → Option Beat
  | .ready => some .ready
  | .serve (.alloc o path) =>
    match (h.serve (.alloc o path)).1, birth path o.size with
    | .allocated _, .young => some (.young o.size)
    | _, _ => none
  | .serve _ => none

def beats (h : Heap) : List Move → List Beat
  | [] => []
  | m :: ms => (h.beat? m).toList ++ (h.move m).beats ms

variable {h : Heap} {m : Move} {ms later : List Move}

theorem course_append (h : Heap) (ms later : List Move) : h.course (ms ++ later) = (h.course ms).course later :=
  List.foldl_append

theorem beats_singleton (h : Heap) (m : Move) : h.beats [m] = (h.beat? m).toList := List.append_nil _

theorem beat?_eq_ready_iff : h.beat? m = some .ready ↔ m = .ready := by
  cases m with
  | ready => simp [beat?]
  | serve op =>
    cases op with
    | alloc o path =>
      simp only [beat?]
      split <;> simp
    | free b => simp [beat?]
    | promote b => simp [beat?]

theorem ready_mem_beats : Beat.ready ∈ h.beats ms ↔ Move.ready ∈ ms := by
  induction ms generalizing h with
  | nil => simp [beats]
  | cons m ms ih =>
    rw [beats, List.mem_append, Option.mem_toList, beat?_eq_ready_iff, ih, List.mem_cons, eq_comm]

/-! ### The count as a machine -/

/-- The count of young words, and the collections asked for. -/
structure Pace where
  ready : Bool
  words : Nat
  requests : Nat
deriving DecidableEq, Repr

namespace Pace

def zero : Pace := ⟨false, 0, 0⟩

def step (limit : Nat) (p : Pace) : Beat → Pace
  | .ready => { p with ready := true }
  | .young n =>
    if p.ready ∧ limit < p.words + n then ⟨p.ready, 0, p.requests + 1⟩ else { p with words := p.words + n }

def run (limit : Nat) (p : Pace) (bs : List Beat) : Pace := bs.foldl (step limit) p

/-- The young words that were allocated at least, as far as the count and the requests tell. -/
def potential (limit : Nat) (p : Pace) : Nat := p.requests * (limit + 1) + p.words

variable {limit n : Nat} {p : Pace} {b : Beat} {bs : List Beat}

theorem step_young (limit n : Nat) (p : Pace) :
    (p.ready = true ∧ limit < p.words + n ∧ p.step limit (.young n) = ⟨p.ready, 0, p.requests + 1⟩) ∨
      (¬ (p.ready = true ∧ limit < p.words + n) ∧ p.step limit (.young n) = { p with words := p.words + n }) := by
  by_cases hdue : p.ready = true ∧ limit < p.words + n
  · exact .inl ⟨hdue.1, hdue.2, if_pos hdue⟩
  · exact .inr ⟨hdue, if_neg hdue⟩

theorem requests_le_step (limit : Nat) (p : Pace) (b : Beat) : p.requests ≤ (p.step limit b).requests := by
  cases b with
  | ready => exact Nat.le_refl _
  | young n => rcases step_young limit n p with ⟨-, -, he⟩ | ⟨-, he⟩ <;> simp [he]

/-- **What a request costs**: it takes away a count above the limit. -/
theorem potential_step (limit : Nat) (p : Pace) (b : Beat) :
    (p.step limit b).potential limit ≤ p.potential limit + b.words := by
  cases b with
  | ready => exact Nat.le_refl _
  | young n =>
    unfold potential
    rcases step_young limit n p with ⟨-, hlt, he⟩ | ⟨-, he⟩ <;> rw [he]
    · simp only [Nat.add_mul, Beat.words]
      omega
    · simp only [Beat.words]
      omega

theorem words_step_of_ne (hne : (p.step limit b).requests ≠ p.requests) : (p.step limit b).words = 0 := by
  cases b with
  | ready => exact absurd rfl hne
  | young n =>
    rcases step_young limit n p with ⟨-, -, he⟩ | ⟨-, he⟩ <;> rw [he] at hne ⊢
    exact absurd rfl hne

theorem words_step_of_eq (heq : (p.step limit b).requests = p.requests) :
    (p.step limit b).words = p.words + b.words := by
  cases b with
  | ready => rfl
  | young n =>
    rcases step_young limit n p with ⟨-, -, he⟩ | ⟨-, he⟩ <;> rw [he] at heq ⊢
    · exact absurd heq (Nat.succ_ne_self _)
    · rfl

theorem words_step_young_le (hp : p.ready = true) : (p.step limit (.young n)).words ≤ limit := by
  rcases step_young limit n p with ⟨-, -, he⟩ | ⟨hnot, he⟩ <;> rw [he]
  · exact Nat.zero_le _
  · exact Nat.le_of_not_lt fun hlt => hnot ⟨hp, hlt⟩

theorem run_append (limit : Nat) (p : Pace) (bs cs : List Beat) :
    p.run limit (bs ++ cs) = (p.run limit bs).run limit cs := List.foldl_append

theorem requests_le_run (limit : Nat) (p : Pace) (bs : List Beat) : p.requests ≤ (p.run limit bs).requests := by
  induction bs generalizing p with
  | nil => exact Nat.le_refl _
  | cons b bs ih => exact (requests_le_step limit p b).trans (ih _)

theorem potential_run (limit : Nat) (p : Pace) (bs : List Beat) :
    (p.run limit bs).potential limit ≤ p.potential limit + Beat.total bs := by
  induction bs generalizing p with
  | nil => exact Nat.le_refl _
  | cons b bs ih =>
    have hstep := potential_step limit p b
    have hrun := ih (p.step limit b)
    simp only [run, Beat.total, List.foldl_cons, List.map_cons, List.sum_cons] at hrun ⊢
    omega

/-- **From an empty count the next request takes more words than the limit.** -/
theorem limit_lt_total (hp : p.words = 0) (hne : (p.run limit bs).requests ≠ p.requests) : limit < Beat.total bs := by
  have hpot := potential_run limit p bs
  have hmore : p.requests + 1 ≤ (p.run limit bs).requests :=
    Nat.lt_of_le_of_ne (requests_le_run limit p bs) (Ne.symm hne)
  have hcost := Nat.mul_le_mul_right (limit + 1) hmore
  rw [Nat.add_mul] at hcost
  simp only [potential, hp] at hpot
  omega

/-- **While no request is made all words are counted.** -/
theorem words_run_of_eq (heq : (p.run limit bs).requests = p.requests) :
    (p.run limit bs).words = p.words + Beat.total bs := by
  induction bs generalizing p with
  | nil => rfl
  | cons b bs ih =>
    have hfirst := requests_le_step limit p b
    have hrest := requests_le_run limit (p.step limit b) bs
    have hlast : (p.run limit (b :: bs)).requests = ((p.step limit b).run limit bs).requests := rfl
    have hnext : (p.step limit b).requests = p.requests := by omega
    have hrun := ih (p := p.step limit b) (by omega)
    rw [words_step_of_eq hnext] at hrun
    simp only [run, Beat.total, List.foldl_cons, List.map_cons, List.sum_cons] at hrun ⊢
    omega

theorem requests_run_of_not_mem (hp : p.ready = false) (hbs : Beat.ready ∉ bs) :
    (p.run limit bs).requests = p.requests := by
  induction bs generalizing p with
  | nil => rfl
  | cons b bs ih =>
    rw [List.mem_cons, not_or] at hbs
    cases b with
    | ready => exact absurd rfl hbs.1
    | young n =>
      rcases step_young limit n p with ⟨hready, -⟩ | ⟨-, he⟩
      · rw [hp] at hready
        cases hready
      · exact (ih (p := p.step limit (.young n)) (by rw [he]; exact hp) hbs.2).trans (by rw [he])

theorem ready_step (hp : p.ready = true) (b : Beat) : (p.step limit b).ready = true := by
  cases b with
  | ready => rfl
  | young n => rcases step_young limit n p with ⟨-, -, he⟩ | ⟨-, he⟩ <;> rw [he] <;> exact hp

theorem ready_run (h : p.ready = true ∨ Beat.ready ∈ bs) : (p.run limit bs).ready = true := by
  induction bs generalizing p with
  | nil => exact h.resolve_right List.not_mem_nil
  | cons b bs ih =>
    refine ih ?_
    rw [List.mem_cons] at h
    rcases h with hp | rfl | hbs
    · exact .inl (ready_step hp b)
    · exact .inl rfl
    · exact .inr hbs

end Pace

/-! ### The heap as that machine -/

def requested (h : Heap) : Nat := h.requests.length

def pace (h : Heap) : Pace := ⟨h.ready, h.minorWords, h.requested⟩

theorem reserve_pace {h h' : Heap} {n : Nat} {path : AllocPath} {g : Generation}
    (hr : h.reserve n path = .ok (g, h')) :
    h'.minorLimit = h.minorLimit ∧ h'.pace = if g = .young then h.pace.step h.minorLimit (.young n) else h.pace := by
  unfold reserve at hr
  split at hr
  · cases hr
  · split at hr
    · obtain ⟨rfl, rfl⟩ := Prod.mk.inj (Except.ok.inj hr)
      exact ⟨rfl, rfl⟩
    · simp only at hr
      split at hr
      · next hdue =>
        obtain ⟨rfl, rfl⟩ := Prod.mk.inj (Except.ok.inj hr)
        exact ⟨rfl, by simp [pace, requested, Pace.step, hdue]⟩
      · next hdue =>
        obtain ⟨rfl, rfl⟩ := Prod.mk.inj (Except.ok.inj hr)
        exact ⟨rfl, by simp [pace, requested, Pace.step, hdue]⟩

theorem serve_pace (h : Heap) (op : Op) :
    (h.serve op).2.minorLimit = h.minorLimit ∧
      (h.serve op).2.pace = h.pace.run h.minorLimit (h.beat? (.serve op)).toList := by
  cases op with
  | promote b => exact ⟨rfl, rfl⟩
  | free b =>
    simp only [serve, beat?]
    cases hf : h.free b with
    | none => exact ⟨rfl, rfl⟩
    | some p =>
      obtain ⟨o, -, rfl⟩ := Option.map_eq_some_iff.1 hf
      exact ⟨rfl, rfl⟩
  | alloc o path =>
    simp only [beat?, serve]
    cases ha : h.alloc o path with
    | error e => exact ⟨rfl, rfl⟩
    | ok p =>
      obtain ⟨b, h'⟩ := p
      obtain ⟨g, h₁, hr, hp⟩ := alloc_eq_ok ha
      obtain ⟨hlimit, hpace⟩ := reserve_pace hr
      obtain rfl := reserve_birth hr
      -- filling a cell has no part in the count
      obtain ⟨hlimit', hpace'⟩ : h'.minorLimit = h₁.minorLimit ∧ h'.pace = h₁.pace := by
        unfold putCell at hp
        split at hp <;> obtain ⟨-, rfl⟩ := Prod.mk.inj hp <;> exact ⟨rfl, rfl⟩
      refine ⟨hlimit'.trans hlimit, (hpace'.trans hpace).trans ?_⟩
      cases birth path o.size <;> rfl

/-- **A move is one step of the count, or none.** -/
theorem pace_move (h : Heap) (m : Move) :
    (h.move m).minorLimit = h.minorLimit ∧ (h.move m).pace = h.pace.run h.minorLimit (h.beat? m).toList := by
  cases m with
  | ready => exact ⟨rfl, rfl⟩
  | serve op => exact serve_pace h op

theorem pace_course (h : Heap) (ms : List Move) :
    (h.course ms).minorLimit = h.minorLimit ∧ (h.course ms).pace = h.pace.run h.minorLimit (h.beats ms) := by
  induction ms generalizing h with
  | nil => exact ⟨rfl, rfl⟩
  | cons m ms ih =>
    obtain ⟨hlimit, hpace⟩ := pace_move h m
    obtain ⟨hlimit', hpace'⟩ := ih (h.move m)
    rw [hlimit] at hlimit' hpace'
    rw [beats, Pace.run_append, ← hpace]
    exact ⟨hlimit', hpace'⟩

theorem requested_course (maxWords limit : Nat) (ms : List Move) :
    ((empty maxWords limit).course ms).requested = (Pace.run limit .zero ((empty maxWords limit).beats ms)).requests :=
  congrArg Pace.requests (pace_course (empty maxWords limit) ms).2

theorem pace_course_append (h : Heap) (earlier later : List Move) :
    (h.course (earlier ++ later)).pace =
      (h.course earlier).pace.run h.minorLimit ((h.course earlier).beats later) := by
  rw [course_append, (pace_course (h.course earlier) later).2, (pace_course h earlier).1]

theorem pace_course_concat (h : Heap) (ms : List Move) (m : Move) :
    (h.course (ms ++ [m])).pace = (h.course ms).pace.run h.minorLimit ((h.course ms).beat? m).toList := by
  rw [pace_course_append, beats_singleton]

theorem pace_course_silent (hm : (h.course ms).beat? m = none) : (h.course (ms ++ [m])).pace = (h.course ms).pace := by
  rw [pace_course_concat, hm]
  rfl

theorem minorWords_of_asked (hasked : (h.course (ms ++ [m])).requested ≠ (h.course ms).requested) :
    (h.course (ms ++ [m])).minorWords = 0 := by
  cases hb : (h.course ms).beat? m with
  | none => exact absurd (congrArg Pace.requests (pace_course_silent hb)) hasked
  | some b =>
    have hstep := pace_course_concat h ms m
    rw [hb] at hstep
    refine (congrArg Pace.words hstep).trans (Pace.words_step_of_ne fun heq => hasked ?_)
    exact (congrArg Pace.requests hstep).trans heq

theorem minorWords_le {n : Nat} (hready : .ready ∈ ms) (hyoung : (h.course ms).beat? m = some (.young n)) :
    (h.course (ms ++ [m])).minorWords ≤ h.minorLimit := by
  have hp : (h.course ms).pace.ready = true := by
    rw [(pace_course h ms).2]
    exact Pace.ready_run (.inr (ready_mem_beats.2 hready))
  have hstep := pace_course_concat h ms m
  rw [hyoung] at hstep
  exact (congrArg Pace.words hstep).trans_le (Pace.words_step_young_le hp)

/-! ### The pace -/

/-- **The pace of collections** in a course of moves from a new heap on. -/
structure Paced (h : Heap) (ms : List Move) : Prop where
  /-- Before the collector is ready nothing is asked for. -/
  unready : .ready ∉ ms → (h.course ms).requested = 0
  /-- Once it is, right after a block that starts young, the young words since any point after which nothing was asked
  for are within the limit: so are those since the last request, or since the heap was new. -/
  prompt : ∀ before m n, ms = before ++ [m] → .ready ∈ before → (h.course before).beat? m = some (.young n) →
    ∀ earlier later, ms = earlier ++ later → (h.course ms).requested = (h.course earlier).requested →
      Beat.total ((h.course earlier).beats later) ≤ h.minorLimit
  /-- From a move that asks for a collection until after the next such move, more young words are allocated than the
  limit. -/
  spaced : ∀ earlier m later, ms = earlier ++ [m] ++ later →
    (h.course (earlier ++ [m])).requested ≠ (h.course earlier).requested →
    (h.course ms).requested ≠ (h.course (earlier ++ [m])).requested →
      h.minorLimit < Beat.total ((h.course (earlier ++ [m])).beats later)
  /-- All requests together are paid for by young words. -/
  amortised : (h.course ms).requested * (h.minorLimit + 1) ≤ Beat.total (h.beats ms)
  /-- A move without a beat asks for nothing. -/
  silent : ∀ m, (h.course ms).beat? m = none → (h.course (ms ++ [m])).requested = (h.course ms).requested
  /-- How many requests there are is told by the beats alone, however many other moves there are and where, and
  whatever the budget is. -/
  undisturbed : ∀ maxWords ms', (empty maxWords h.minorLimit).beats ms' = h.beats ms →
    ((empty maxWords h.minorLimit).course ms').requested = (h.course ms).requested

/-- **Minor collections come at the right pace**, whatever is done to a heap. -/
theorem course_paced (maxWords limit : Nat) (ms : List Move) : Paced (empty maxWords limit) ms where
  unready hunready := by
    rw [requested_course]
    exact Pace.requests_run_of_not_mem rfl (mt ready_mem_beats.1 hunready)
  prompt := by
    rintro before m n rfl hready hyoung earlier later hsplit heq
    have hlast := minorWords_le hready hyoung
    have hpace := pace_course_append (empty maxWords limit) earlier later
    rw [hsplit] at hlast heq
    -- nothing was asked for on the way, so all of its words are in the count
    have hwords := Pace.words_run_of_eq ((congrArg Pace.requests hpace).symm.trans heq)
    rw [← hpace] at hwords
    exact (Nat.le_add_left _ _).trans (hwords.symm.trans_le hlast)
  spaced := by
    rintro earlier m later rfl hfirst hsecond
    have hpace := pace_course_append (empty maxWords limit) (earlier ++ [m]) later
    exact Pace.limit_lt_total (minorWords_of_asked hfirst) fun heq => hsecond ((congrArg Pace.requests hpace).trans heq)
  amortised := by
    rw [requested_course]
    have hpot := Pace.potential_run limit .zero ((empty maxWords limit).beats ms)
    simp only [Pace.potential, Pace.zero, Nat.zero_mul, Nat.zero_add] at hpot
    exact (Nat.le_add_right _ _).trans hpot
  silent m hm := congrArg Pace.requests (pace_course_silent hm)
  undisturbed maxWords' ms' hbeats := by
    rw [requested_course, requested_course]
    exact congrArg (fun bs => (Pace.run limit .zero bs).requests) hbeats

/-- Collections are asked for once the collector is ready: the second young block passes the limit of three words, and
the block that starts old in between has no part in it. -/
example : ((empty 100 3).course [.ready, .serve (.alloc (.block 0 [.null, .null]) .normal),
    .serve (.alloc (.block 0 [.null, .null]) .quiet),
    .serve (.alloc (.block 0 [.null, .null]) .normal)]).requested = 1 := by decide

end FiberStacks.Heap
