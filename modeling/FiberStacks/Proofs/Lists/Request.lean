import FiberStacks.Proofs.Lists.Words

/-!
# Requests

What a domain asks of its stacks, and the answers of somebody who keeps one list of words for each fiber.

* `Request.run` — a request carried out by the acting domain;
* `Lists.answer` — the same by lists of words;
* `Request.MayStop` — the stops there are;
* `Fibers.after` — the fibers of the domain afterwards, where the block that replaces another one stands in its place;
* `Request.run_spec` — **the domain answers as the lists do**, and a stop leaves them as they are.
-/

namespace FiberStacks

open FiberStacks.Action

/-- What a domain asks of its stacks, which are named by `β`. -/
inductive Request (β : Type) where
  | alloc (words : Nat) (handlers : Handlers)
  | push (w : Word)
  | pop
  | peek (depth : Nat)
  | used
  | ensure (required : Nat)
  | grow (required : Nat) (saved : List Word)
  | maybeExpand (registers : List Word)
  | switch (fiber : β)
  | save
  | sync
  | collect
  | enterRegion
  | leaveRegion (depth : Nat)
  | takePending
deriving DecidableEq, Repr

inductive Reply (β : Type) where
  | done
  | word (w : Option Word)
  | count (words : Nat)
  | words (ws : List Word)
  | fiber (b : β)
  | grown (b : β) (saved : List Word)
deriving DecidableEq, Repr

def Request.map {β γ : Type} (g : β → γ) : Request β → Request γ
  | alloc words h => alloc words h
  | push w => push w
  | pop => pop
  | peek depth => peek depth
  | used => used
  | ensure required => ensure required
  | grow required saved => grow required saved
  | maybeExpand ws => maybeExpand ws
  | switch b => switch (g b)
  | save => save
  | sync => sync
  | collect => collect
  | enterRegion => enterRegion
  | leaveRegion depth => leaveRegion depth
  | takePending => takePending

def Reply.map {β γ : Type} (g : β → γ) : Reply β → Reply γ
  | done => done
  | word w => word w
  | count n => count n
  | words ws => words ws
  | fiber b => fiber (g b)
  | grown b saved => grown (g b) saved

/-- The stops of a request, under a threshold. -/
def Request.MayStop {β : Type} (threshold : Nat) : Request β → Stop → Prop
  | alloc .., e => e.NewFiber
  | push _, e => e.Raising
  | maybeExpand _, e => e.Raising ∨ e = .fault .productTooLarge ∧ Size.bound ≤ 2 * threshold
  | ensure _, e | grow .., e => e.Raising ∨ e.Unbounded
  | leaveRegion _, e => e = .fault .unbalanced
  | takePending, e => e = .fault .nothingPending
  | pop, _ | peek _, _ | used, _ | switch _, _ | save, _ | sync, _ | collect, _ | enterRegion, _ => False

/-- Carry out a request. A protected region is entered and left, and its exception taken, by requests of their own. -/
def Request.run : Request BlockId → Act (Reply BlockId)
  | alloc words h => Reply.fiber <$> Act.newStackOf words h
  | push w => (fun _ => Reply.done) <$> Act.push w
  | pop => Reply.word <$> Act.pop
  | peek depth => Reply.word <$> Act.peek depth
  | used => (fun d : Domain => Reply.count d.used) <$> Act.domain
  | ensure required => (fun _ => Reply.done) <$> Act.ensure required
  | grow required saved => (fun p : BlockId × List Word => Reply.grown p.1 p.2) <$> Act.grow required saved
  | maybeExpand ws => Reply.words <$> Act.maybeExpand ws
  | switch b => Reply.fiber <$> Act.switchStack b
  | save => Reply.fiber <$> Act.saveStack
  | sync => (fun _ => Reply.done) <$> Act.syncStack
  | collect => (fun _ => Reply.done) <$> (Act.saveForCollection >>= fun _ => Act.restoreForCollection)
  | enterRegion => (fun _ => Reply.done) <$> Act.enterRegion
  | leaveRegion depth => (fun _ => Reply.done) <$> Act.leaveRegion depth
  | takePending => (fun _ => Reply.done) <$> Act.takePending

/-! ### Lists -/

/-- **One list of words for each fiber**, oldest word first, and the fiber that is running. -/
structure Lists where
  fibers : List (List Word)
  running : Nat
deriving DecidableEq, Repr

namespace Lists

def current (l : Lists) : List Word := l.fibers[l.running]?.getD []

def setCurrent (l : Lists) (ws : List Word) : Lists := { l with fibers := l.fibers.set l.running ws }

/-- **The answer of the lists**, and the lists afterwards. -/
def answer (l : Lists) : Request Nat → Reply Nat × Lists
  | .alloc .. => (.fiber l.fibers.length, { l with fibers := l.fibers ++ [[trapSentinel]] })
  | .push w => (.done, l.setCurrent (l.current ++ [w]))
  | .pop => (.word l.current.getLast?, l.setCurrent l.current.dropLast)
  | .peek depth => (.word l.current.reverse[depth]?, l)
  | .used => (.count l.current.length, l)
  | .grow _ saved => (.grown l.running saved, l)
  | .maybeExpand ws => (.words ws, l)
  | .switch k => (.fiber l.running, { l with running := k })
  | .save => (.fiber l.running, l)
  | .ensure _ | .sync | .collect | .enterRegion | .leaveRegion _ | .takePending => (.done, l)

end Lists

/-! ### The fibers of a domain -/

/-- The blocks of the fibers of a domain, by number, and the number of the running one. -/
structure Fibers where
  blocks : List BlockId
  running : Nat
deriving DecidableEq, Repr

namespace Fibers

def none : Fibers := ⟨[], 0⟩

def number (fs : Fibers) (b : BlockId) : Nat := fs.blocks.idxOf b

/-- The lists of the fibers, as the acting domain sees them. -/
def lists (fs : Fibers) (a : Active) : Lists := ⟨fs.blocks.map a.words, fs.running⟩

/-- **The fibers after a request**: a new one is the last, and the block the domain runs on now stands in the place of
the one it ran on. -/
def after (fs : Fibers) (q : Request BlockId) (r : Reply BlockId) (current : Option BlockId) : Fibers :=
  match q, r with
  | .alloc .., .fiber b => { fs with blocks := fs.blocks ++ [b] }
  | .switch b, _ => { fs with running := fs.number b }
  | _, _ => { fs with blocks := (current.map (fs.blocks.set fs.running)).getD fs.blocks }

end Fibers

/-- The request names a fiber of the domain, if any. -/
def Request.Within (fs : Fibers) : Request BlockId → Prop
  | .switch b => b ∈ fs.blocks
  | _ => True

instance (fs : Fibers) : (q : Request BlockId) → Decidable (q.Within fs)
  | .switch b => inferInstanceAs (Decidable (b ∈ fs.blocks))
  | .alloc .. | .push _ | .pop | .peek _ | .used | .ensure _ | .grow .. | .maybeExpand _ | .save | .sync | .collect
  | .enterRegion | .leaveRegion _ | .takePending => .isTrue trivial

/-! ### Protected regions -/

namespace Act

variable {a : Active}

theorem enterRegion_spec : enterRegion.wp a (fun _ t => Aside a t) fun _ _ => False := by
  refine ⟨rfl, rfl, rfl, rfl, rfl, rfl, fun hc => ⟨hc.frames, fun c hmem => ?_, hc.blocking, hc.saved⟩⟩
  rcases List.mem_cons.1 hmem with rfl | hmem
  · rw [hc.frames, hc.blocking]
    rfl
  · exact hc.handlers c hmem

theorem leaveRegion_spec (depth : Nat) :
    (leaveRegion depth).wp a (fun _ t => Aside a t) fun e t => e = .fault .unbalanced ∧ t = a := by
  unfold leaveRegion
  simp only [wp_bind, wp_domain, wp_require, wp_modifyDomain]
  refine ⟨fun _ => ⟨rfl, rfl, rfl, rfl, rfl, rfl, fun hc => ?_⟩, fun _ => ⟨trivial, trivial⟩⟩
  exact ⟨hc.frames, fun c hmem => hc.handlers c (List.mem_of_mem_tail hmem), hc.blocking, hc.saved⟩

theorem takePending_spec :
    takePending.wp a (fun _ t => Aside a t) fun e t => e = .fault .nothingPending ∧ t = a := by
  unfold takePending
  simp only [wp_bind, wp_domain]
  split
  · exact ⟨rfl, rfl⟩
  · exact ⟨rfl, rfl, rfl, rfl, rfl, rfl, fun hc => ⟨hc.frames, hc.handlers, hc.blocking, hc.saved⟩⟩

end Act

/-! ### The answers agree -/

section Answers

variable {fs : Fibers} {q : Request BlockId} {r : Reply BlockId} {a t : Active} {b : BlockId}

/-- **A domain has answered as its lists do.** -/
structure Answers (fs : Fibers) (q : Request BlockId) (a : Active) (r : Reply BlockId) (t : Active) : Prop where
  acts : Acts fs.blocks (fs.after q r t.domain.current?).blocks (fs.after q r t.domain.current?).running a t
  answer : (r.map (fs.after q r t.domain.current?).number, (fs.after q r t.domain.current?).lists t) =
    (fs.lists a).answer (q.map fs.number)

theorem Fibers.number_of_getElem? {k : Nat} (h : fs.blocks.Nodup) (hk : fs.blocks[k]? = some b) : fs.number b = k := by
  obtain ⟨hlt, rfl⟩ := List.getElem?_eq_some_iff.1 hk
  exact h.idxOf_getElem k hlt

theorem Owns.current? {f : List BlockId} {n : Nat} (h : Owns f n a) (hn : f[n]? = some b) :
    a.domain.current? = some b := by
  obtain ⟨r, x, hr, hrn⟩ := h.running
  simp only [Domain.current?, hr.registers, Option.map_some]
  exact hrn.symm.trans hn

theorem Fibers.current_lists (hn : fs.blocks[fs.running]? = some b) : (fs.lists a).current = a.words b := by
  simp [Lists.current, Fibers.lists, hn]

theorem Answers.of_acts {old : BlockId} {ws : List Word} (hn : fs.blocks[fs.running]? = some old)
    (h : Acts fs.blocks (fs.blocks.set fs.running b) fs.running a t)
    (hwords : (fs.blocks.set fs.running b).map t.words = (fs.blocks.map a.words).set fs.running ws)
    (hafter : fs.after q r (some b) = ⟨fs.blocks.set fs.running b, fs.running⟩)
    (hanswer : (fs.lists a).answer (q.map fs.number) =
      (r.map (Fibers.number ⟨fs.blocks.set fs.running b, fs.running⟩), (fs.lists a).setCurrent ws)) :
    Answers fs q a r t := by
  have hself : (fs.blocks.set fs.running b)[fs.running]? = some b :=
    List.getElem?_set_self (List.getElem?_eq_some_iff.1 hn).1
  have hcurrent := h.owns.current? hself
  refine ⟨?_, ?_⟩ <;> rw [hcurrent, hafter]
  · exact h
  · rw [hanswer]
    exact congrArg _ (congrArg (Lists.mk · fs.running) hwords)

theorem Answers.of_moved {old : BlockId} (hn : fs.blocks[fs.running]? = some old)
    (h : Moved fs.blocks fs.running b a t)
    (hafter : fs.after q r (some b) = ⟨fs.blocks.set fs.running b, fs.running⟩)
    (hanswer : (fs.lists a).answer (q.map fs.number) =
      (r.map (Fibers.number ⟨fs.blocks.set fs.running b, fs.running⟩), fs.lists a)) : Answers fs q a r t := by
  have hsame := set_words (a := a) hn
  exact .of_acts hn h.acts (h.words.trans hsame.symm) hafter
    (hanswer.trans (congrArg _ (congrArg (Lists.mk · fs.running) hsame.symm)))

theorem Answers.of_idle (hn : fs.blocks[fs.running]? = some b) (h : Idle fs.blocks fs.running a t)
    (hafter : fs.after q r (some b) = ⟨fs.blocks.set fs.running b, fs.running⟩)
    (hanswer : (fs.lists a).answer (q.map fs.number) = (r.map fs.number, fs.lists a)) : Answers fs q a r t :=
  .of_moved hn (h.moved hn) hafter (by rw [hanswer, set_self hn])

theorem Answers.of_new {words : Nat} {hs : Handlers} (h : Acts fs.blocks (fs.blocks ++ [b]) fs.running a t)
    (hold : ∀ c ∈ fs.blocks, t.words c = a.words c) (hnew : t.words b = [trapSentinel]) :
    Answers fs (.alloc words hs) a (.fiber b) t := by
  refine ⟨h, ?_⟩
  have hlast : (fs.blocks ++ [b])[fs.blocks.length]? = some b := by simp
  have hnumber : Fibers.number ⟨fs.blocks ++ [b], fs.running⟩ b = fs.blocks.length :=
    Fibers.number_of_getElem? h.owns.nodup hlast
  have hlists : (fs.blocks ++ [b]).map t.words = fs.blocks.map a.words ++ [[trapSentinel]] := by
    rw [List.map_append, List.map_congr_left hold, List.map_singleton, hnew]
  change (Reply.fiber (Fibers.number ⟨fs.blocks ++ [b], fs.running⟩ b),
    Lists.mk ((fs.blocks ++ [b]).map t.words) fs.running) = _
  rw [hnumber, hlists]
  simp [Lists.answer, Request.map, Fibers.lists]

theorem Answers.of_switch {k : Nat} {previous : BlockId} (hk : fs.blocks[k]? = some b)
    (hn : fs.blocks[fs.running]? = some previous) (h : Idle fs.blocks k a t) :
    Answers fs (.switch b) a (.fiber previous) t := by
  have hnodup := h.acts.owns.nodup
  have hnumber := Fibers.number_of_getElem? hnodup hk
  constructor
  · change Acts fs.blocks fs.blocks (fs.number b) a t
    rw [hnumber]
    exact h.acts
  · change (Reply.fiber (fs.number previous), Lists.mk (fs.blocks.map t.words) (fs.number b)) = _
    rw [Fibers.number_of_getElem? hnodup hn, List.map_congr_left h.words]
    rfl

theorem Answers.of_aside (h : Owns fs.blocks fs.running a) (ht : Aside a t)
    (hafter : ∀ b, fs.after q r (some b) = ⟨fs.blocks.set fs.running b, fs.running⟩)
    (hanswer : (fs.lists a).answer (q.map fs.number) = (r.map fs.number, fs.lists a)) : Answers fs q a r t := by
  obtain ⟨r, x, -, hn⟩ := h.running
  exact .of_idle hn (ht.idle h) (hafter _) hanswer

/-- **The domain answers as the lists do, and a stop leaves them as they are.** -/
theorem Request.run_spec (q : Request BlockId) (hq : q.Within fs) (h : Owns fs.blocks fs.running a) :
    q.run.wp a (fun r t => Answers fs q a r t) fun e t =>
      Idle fs.blocks fs.running a t ∧ q.MayStop a.world.config.stackThresholdWords e := by
  obtain ⟨r, x, hr, hn⟩ := h.running
  have hcurrent := fs.current_lists (a := a) hn
  unfold run
  cases q with
  | alloc words hs =>
    refine (wp_map _ _).2 (wp_mono (Act.newStackOf_spec words hs h) ?_ fun _ _ he => he)
    rintro b t ⟨ht, hold, hnew⟩
    exact .of_new ht hold hnew
  | push w =>
    refine (wp_map _ _).2 (wp_mono (Act.push_spec w h hr hn) ?_ fun _ _ he => he)
    rintro - t ⟨b, ht, hwords⟩
    exact .of_acts hn ht hwords rfl (by rw [← hcurrent]; rfl)
  | pop =>
    refine (wp_map _ _).2 (wp_of_returns (Act.pop_spec h hr hn) ?_)
    rintro _ t ⟨rfl, ht, hwords⟩
    refine .of_acts (b := r.current) hn ((set_self hn).symm ▸ ht) (by rw [set_self hn]; exact hwords) rfl ?_
    rw [← hcurrent]
    rfl
  | peek depth =>
    refine (wp_map _ _).2 (wp_of_returns (Act.peek_spec depth hr) ?_)
    rintro _ t ⟨rfl, rfl⟩
    exact .of_idle hn h.idle rfl (by rw [← hcurrent]; rfl)
  | used =>
    refine (wp_map _ _).2 (.of_idle hn h.idle rfl ?_)
    have hused : a.domain.used = (a.words r.current).length := by
      rw [hr.length_words]
      simp [Domain.used, hr.registers]
    rw [hused, ← hcurrent]
    rfl
  | ensure required =>
    refine (wp_map _ _).2 (wp_mono (Act.ensure_spec required h hr hn) ?_ fun e t he => he.imp id fun he =>
      he.imp id And.left)
    rintro - t ⟨b, ht, -⟩
    exact .of_moved hn ht rfl rfl
  | grow required saved =>
    refine (wp_map _ _).2 (wp_mono (Act.grow_spec required saved h hr hn) ?_ fun e t he => he.imp id fun he =>
      he.imp id And.left)
    rintro p t ⟨hp, ht, -⟩
    refine .of_moved hn ht rfl ?_
    have hself : (fs.blocks.set fs.running p.1)[fs.running]? = some p.1 :=
      List.getElem?_set_self (List.getElem?_eq_some_iff.1 hn).1
    rw [Reply.map, Fibers.number_of_getElem? ht.acts.owns.nodup hself, hp]
    rfl
  | maybeExpand ws =>
    refine (wp_map _ _).2 (wp_mono (Act.maybeExpand_spec ws h hr hn) ?_ fun _ _ he => he)
    rintro _ t ⟨rfl, b, ht, -⟩
    exact .of_moved hn ht rfl rfl
  | switch b =>
    obtain ⟨k, hk⟩ := List.getElem?_of_mem hq
    refine (wp_map _ _).2 (wp_of_returns (Act.switchStack_spec h hk) ?_)
    rintro p t ⟨hp, ht⟩
    exact .of_switch hk hp ht
  | save =>
    refine (wp_map _ _).2 (wp_of_returns (Act.saveStack_spec h hr) ?_)
    rintro _ t ⟨rfl, ht, -⟩
    refine .of_idle hn ht rfl ?_
    rw [Reply.map, Fibers.number_of_getElem? h.nodup hn]
    rfl
  | sync =>
    exact (wp_map _ _).2 (wp_of_returns (Act.syncStack_spec h hr) fun _ t ht => .of_idle hn ht.1 rfl rfl)
  | collect =>
    exact (wp_map _ _).2 (wp_of_returns (Act.collect_spec h) fun _ t ht => .of_idle hn ht rfl rfl)
  | enterRegion =>
    exact (wp_map _ _).2 (wp_of_returns Act.enterRegion_spec fun _ t ht => .of_aside h ht (fun _ => rfl) rfl)
  | leaveRegion depth =>
    refine (wp_map _ _).2 (wp_mono (Act.leaveRegion_spec depth) (fun _ t ht => .of_aside h ht (fun _ => rfl) rfl) ?_)
    rintro e _ ⟨he, rfl⟩
    exact ⟨h.idle, he⟩
  | takePending =>
    refine (wp_map _ _).2 (wp_mono Act.takePending_spec (fun _ t ht => .of_aside h ht (fun _ => rfl) rfl) ?_)
    rintro e _ ⟨he, rfl⟩
    exact ⟨h.idle, he⟩

end Answers

end FiberStacks
