import FiberStacks.Proofs.Documents.Library
import Mathlib.Data.List.Forall2
import Mathlib.Data.List.Induction
import Mathlib.Data.List.Perm.Basic

/-!
# Configuration documents mean what they say

A document assigns some of the settings, each in a line of its own, in any order and among lines for other keys. It is
read as the defaults with just these values, if they pass the check of a configuration. Entries with different keys
can be taken up in either order, so that the order of the lines does not count. Of the library that reads and writes
documents no more is used than what is documented.

* `Assignment` — values for some of the settings; `Assignment.onto`, `Assignment.lines` — what they mean, and how they
  are written;
* `Config.Sets.comm` — entries with different keys;
* `Config.ofDocument_of_table` — **a table of settings is what it assigns**, in whatever order;
* `Config.ofDocument_join` — **documents of lines**;
* `Config.ofDocument_toDocument` — **what is written is read back**;
* `Config.ofDocument_lines` — both together.
-/

namespace FiberStacks

open Toml (Entries Node Writes SpellsKey SpellsValue lineOf)

variable {a : Assignment} {c : Config} {e e' : String × Node} {f g : Config → Config} {key : String} {m n : Nat}
  {lib : DocumentLibrary} {Line : String → String × Node → Prop}

/-! ### Assignments -/

structure Assignment where
  initStackWords : Option Nat := none
  fiberStackWords : Option Nat := none
  maxStackWords : Option Nat := none
  stackThresholdWords : Option Nat := none
  minorHeapWords : Option Nat := none
  maxHeapWords : Option Nat := none
  layout : Option LayoutKind := none

namespace Assignment

def sizes (a : Assignment) : List (String × Option Nat) :=
  [("init_stack_words", a.initStackWords), ("fiber_stack_words", a.fiberStackWords),
    ("max_stack_words", a.maxStackWords), ("stack_threshold_words", a.stackThresholdWords),
    ("minor_heap_words", a.minorHeapWords), ("max_heap_words", a.maxHeapWords)]

/-- The sizes are numbers that a document can express. -/
def Small (a : Assignment) : Prop := ∀ p ∈ a.sizes, ∀ n ∈ p.2, n < 2 ^ 63

/-- **What is assigned, over a configuration.** -/
def onto (a : Assignment) (c : Config) : Config where
  initStackWords := a.initStackWords.getD c.initStackWords
  fiberStackWords := a.fiberStackWords.getD c.fiberStackWords
  maxStackWords := a.maxStackWords.getD c.maxStackWords
  stackThresholdWords := a.stackThresholdWords.getD c.stackThresholdWords
  minorHeapWords := a.minorHeapWords.getD c.minorHeapWords
  maxHeapWords := a.maxHeapWords.getD c.maxHeapWords
  layout := a.layout.getD c.layout

/-- **The lines of an assignment**, each `name = value`. -/
def lines (a : Assignment) : List String :=
  (a.sizes.filterMap fun p => p.2.map fun n => p.1 ++ " = " ++ Text.decimal n ++ "\n") ++
    (a.layout.map fun k => "layout = \"" ++ k.name ++ "\"\n").toList

def entries (a : Assignment) : Entries :=
  (a.sizes.filterMap fun p => p.2.map fun n => (p.1, .integer n)) ++
    (a.layout.map fun k => ("layout", .text k.name)).toList

def ofConfig (c : Config) : Assignment :=
  ⟨some c.initStackWords, some c.fiberStackWords, some c.maxStackWords, some c.stackThresholdWords,
    some c.minorHeapWords, some c.maxHeapWords, some c.layout⟩

theorem onto_ofConfig (c d : Config) : (ofConfig c).onto d = c := rfl

end Assignment

/-! ### Lines of settings -/

namespace Config

theorem map_fst_sizes (a : Assignment) : a.sizes.map Prod.fst = sizeNames := rfl

theorem spells_name (h : key ∈ names) : SpellsKey key.toList key := by
  have hbare : ∀ key ∈ names, key.toList ≠ [] ∧ key.toList.all Toml.isBareChar = true := by decide
  have hspells := SpellsKey.bare (hbare key h).1 (List.all_eq_true.1 (hbare key h).2)
  rwa [String.ofList_toList] at hspells

theorem ofList_lineOf (k v : String) : String.ofList (lineOf k.toList v.toList) = k ++ " = " ++ v ++ "\n" := by
  rw [← String.toList_inj, String.toList_ofList]
  simp [lineOf, String.toList_append]

theorem line_size (hlib : lib.Format Line) (h : key ∈ sizeNames) (hn : n < 2 ^ 63) :
    Line (key ++ " = " ++ Text.decimal n ++ "\n") (key, .integer n) := by
  have hsigned : Text.signed n = Text.decimal n := if_neg (Int.not_lt.2 (Int.natCast_nonneg n))
  have hvalue : SpellsValue (Text.signed n).toList (.integer n) := .integer (by omega) (by omega)
  have hline := hlib.spelled (spells_name (List.mem_append_left _ h)) hvalue
  rwa [ofList_lineOf, hsigned] at hline

theorem line_layout (hlib : lib.Format Line) (k : LayoutKind) :
    Line ("layout = \"" ++ k.name ++ "\"\n") ("layout", .text k.name) := by
  have hkey : SpellsKey "layout".toList "layout" := spells_name (by decide)
  have hline := hlib.spelled hkey (.text k.name)
  have hspelled : String.ofList (lineOf "layout".toList (Toml.basicText k.name.toList)) =
      "layout = \"" ++ k.name ++ "\"\n" := by
    cases k <;> decide
  rwa [hspelled] at hline

/-- **The lines of an assignment are those of its entries.** -/
theorem forall₂_lines (hlib : lib.Format Line) (ha : a.Small) : List.Forall₂ Line a.lines a.entries := by
  refine List.rel_append ?_ ?_
  · have hsame : List.Forall₂ (fun p q => p = q ∧ p ∈ a.sizes) a.sizes a.sizes :=
      List.forall₂_same.2 fun p hp => ⟨rfl, hp⟩
    refine List.rel_filterMap ?_ hsame
    rintro ⟨key, o⟩ _ ⟨rfl, hp⟩
    cases o with
    | none => exact .none
    | some n => exact .some (line_size hlib (map_fst_sizes a ▸ List.mem_map_of_mem hp) (ha _ hp n rfl))
  · cases a.layout with
    | none => exact .nil
    | some k => exact .cons (line_layout hlib k) .nil

/-! ### Entries of settings -/

theorem setSize_eq (c : Config) (key : String) (n : Nat) : c.setSize key n =
    { c with
      initStackWords := if key = "init_stack_words" then n else c.initStackWords
      fiberStackWords := if key = "fiber_stack_words" then n else c.fiberStackWords
      maxStackWords := if key = "max_stack_words" then n else c.maxStackWords
      stackThresholdWords := if key = "stack_threshold_words" then n else c.stackThresholdWords
      minorHeapWords := if key = "minor_heap_words" then n else c.minorHeapWords
      maxHeapWords := if key = "max_heap_words" then n else c.maxHeapWords } := by
  by_cases h₁ : key = "init_stack_words"
  · subst h₁; rfl
  by_cases h₂ : key = "fiber_stack_words"
  · subst h₂; rfl
  by_cases h₃ : key = "max_stack_words"
  · subst h₃; rfl
  by_cases h₄ : key = "stack_threshold_words"
  · subst h₄; rfl
  by_cases h₅ : key = "minor_heap_words"
  · subst h₅; rfl
  by_cases h₆ : key = "max_heap_words"
  · subst h₆; rfl
  simp only [setSize, if_neg h₁, if_neg h₂, if_neg h₃, if_neg h₄, if_neg h₅, if_neg h₆]

theorem ite_comm {x y z : String} (h : x ≠ y) (i m n : Nat) :
    (if y = z then n else if x = z then m else i) = if x = z then m else if y = z then n else i := by
  split
  · next hy =>
    subst hy
    rw [if_neg h]
  · rfl

theorem setSize_comm {x y : String} (h : x ≠ y) (c : Config) (m n : Nat) :
    (c.setSize x m).setSize y n = (c.setSize y n).setSize x m := by
  simp only [setSize_eq, ite_comm h]

/-- **Entries with different keys can be taken up in either order.** -/
theorem Sets.comm (hf : Sets e f) (hg : Sets e' g) (hne : e.1 ≠ e'.1) (c : Config) : f (g c) = g (f c) := by
  cases hf with
  | unknown => rfl
  | size =>
    cases hg with
    | unknown => rfl
    | size => exact (setSize_comm hne c _ _).symm
    | layout k => simp only [setSize_eq]
  | layout k =>
    cases hg with
    | unknown => rfl
    | size => simp only [setSize_eq]
    | layout => exact absurd rfl hne

/-! ### Tables of settings -/

/-- A configuration with one more entry taken up. -/
def takeUp (c : Config) (e : String × Node) : Config :=
  match setEntry? c e with
  | some c => c
  | none => c

theorem Sets.takeUp (h : Sets e f) (c : Config) : c.takeUp e = f c := by
  rw [Config.takeUp, setEntry?_of_sets h]

variable {es es' unknown : Entries}

/-- **The settings of a table**, taken up one after the other. -/
theorem decode_eq_foldl (hlib : lib.Derived) (h : ∀ e ∈ es, ∃ f, Sets e f) (hkeys : (es.map Prod.fst).Nodup)
    (c : Config) : lib.decode c es = some (es.foldl takeUp c) := by
  induction es using List.reverseRecOn with
  | nil => exact hlib.missing c
  | append_singleton es e ih =>
    obtain ⟨f, hf⟩ := h e (List.mem_append_right _ (List.mem_singleton_self e))
    rw [List.map_append, List.nodup_append] at hkeys
    have hnew : e.1 ∉ es.map Prod.fst := fun he => hkeys.2.2 _ he _ (List.mem_singleton_self e.1) rfl
    rw [hlib.decode_concat hf hnew, ih (fun e he => h e (List.mem_append_left _ he)) hkeys.1, List.foldl_append]
    exact congrArg some (hf.takeUp _).symm

/-- **The order of entries does not count.** -/
theorem foldl_takeUp_perm (hperm : es.Perm es') (h : ∀ e ∈ es, ∃ f, Sets e f) (hkeys : (es.map Prod.fst).Nodup)
    (c : Config) : es.foldl takeUp c = es'.foldl takeUp c := by
  refine hperm.foldl_eq' (fun e he e' he' c => ?_) c
  by_cases heq : e.1 = e'.1
  · rw [List.inj_on_of_nodup_map hkeys he he' heq]
  · obtain ⟨f, hf⟩ := h e he
    obtain ⟨g, hg⟩ := h e' he'
    rw [hf.takeUp, hg.takeUp, hg.takeUp, hf.takeUp]
    exact (hf.comm hg heq c).symm

theorem elim_setSize (o : Option Nat) (c : Config) :
    o.elim c (c.setSize "init_stack_words") = { c with initStackWords := o.getD c.initStackWords } ∧
    o.elim c (c.setSize "fiber_stack_words") = { c with fiberStackWords := o.getD c.fiberStackWords } ∧
    o.elim c (c.setSize "max_stack_words") = { c with maxStackWords := o.getD c.maxStackWords } ∧
    o.elim c (c.setSize "stack_threshold_words") = { c with stackThresholdWords := o.getD c.stackThresholdWords } ∧
    o.elim c (c.setSize "minor_heap_words") = { c with minorHeapWords := o.getD c.minorHeapWords } ∧
    o.elim c (c.setSize "max_heap_words") = { c with maxHeapWords := o.getD c.maxHeapWords } := by
  cases o <;> exact ⟨rfl, rfl, rfl, rfl, rfl, rfl⟩

theorem foldl_entries (ha : a.Small) (c : Config) : a.entries.foldl takeUp c = a.onto c := by
  have hsizes : a.sizes.foldl (fun c p => p.2.elim c (c.setSize p.1)) c = { a.onto c with layout := c.layout } := by
    simp only [Assignment.sizes, List.foldl_cons, List.foldl_nil, elim_setSize]
    rfl
  unfold Assignment.entries
  rw [List.foldl_append, List.foldl_filterMap]
  refine (congrArg (List.foldl takeUp · _) ((List.foldl_ext _ _ _ fun c p hp => ?_).trans hsizes)).trans ?_
  · obtain ⟨key, o⟩ := p
    cases o with
    | none => rfl
    | some n => exact (Sets.size (map_fst_sizes a ▸ List.mem_map_of_mem hp) (ha _ hp n rfl)).takeUp c
  · unfold Assignment.onto
    cases a.layout with
    | none => rfl
    | some k => exact (Sets.layout k).takeUp _

theorem foldl_unknown : ∀ {es : Entries}, (∀ e ∈ es, e.1 ∉ names) → ∀ c : Config, es.foldl takeUp c = c
  | [], _, _ => rfl
  | e :: es, h, c => by
    rw [List.foldl_cons, (Sets.unknown (h e List.mem_cons_self)).takeUp]
    exact foldl_unknown (fun e he => h e (List.mem_cons_of_mem _ he)) c

theorem sets_entries (ha : a.Small) : ∀ e ∈ a.entries, (∃ f, Sets e f) ∧ ∃ v, SpellsValue v e.2 := by
  intro e he
  rcases List.mem_append.1 he with he | he
  · obtain ⟨p, hp, hpe⟩ := List.mem_filterMap.1 he
    obtain ⟨n, hn, rfl⟩ := Option.map_eq_some_iff.1 hpe
    have hsmall := ha p hp n hn
    exact ⟨⟨_, .size (map_fst_sizes a ▸ List.mem_map_of_mem hp) hsmall⟩, _, .integer (by omega) (by omega)⟩
  · obtain ⟨k, -, rfl⟩ := Option.map_eq_some_iff.1 (Option.mem_toList.1 he)
    exact ⟨⟨_, .layout k⟩, _, .text k.name⟩

theorem sublist_keys (f : String → Nat → Node) : ∀ l : List (String × Option Nat),
    ((l.filterMap fun p => p.2.map fun n => (p.1, f p.1 n)).map Prod.fst).Sublist (l.map Prod.fst)
  | [] => .slnil
  | (_, none) :: l => .cons _ (sublist_keys f l)
  | (_, some _) :: l => .cons_cons _ (sublist_keys f l)

theorem sublist_entries (a : Assignment) : (a.entries.map Prod.fst).Sublist names := by
  unfold Assignment.entries
  rw [List.map_append]
  refine (sublist_keys (fun _ n => .integer n) a.sizes).append ?_
  cases a.layout with
  | none => exact List.nil_sublist _
  | some k => exact List.Sublist.refl _

theorem nodup_keys (hperm : es.Perm (a.entries ++ unknown)) (hunknown : ∀ e ∈ unknown, e.1 ∉ names)
    (hdistinct : (unknown.map Prod.fst).Nodup) : (es.map Prod.fst).Nodup := by
  rw [(hperm.map Prod.fst).nodup_iff, List.map_append]
  refine ((sublist_entries a).nodup (by decide)).append hdistinct fun key hkey hkey' => ?_
  obtain ⟨e, he, rfl⟩ := List.mem_map.1 hkey'
  exact hunknown e he ((sublist_entries a).subset hkey)

/-- **A table of settings is what it assigns**, in whatever order. -/
theorem decode_of_perm (hlib : lib.Derived) (ha : a.Small) (hperm : es.Perm (a.entries ++ unknown))
    (hunknown : ∀ e ∈ unknown, e.1 ∉ names) (hdistinct : (unknown.map Prod.fst).Nodup) (c : Config) :
    lib.decode c es = some (a.onto c) := by
  have hkeys := nodup_keys hperm hunknown hdistinct
  have hsets : ∀ e ∈ es, ∃ f, Sets e f := by
    intro e he
    rcases List.mem_append.1 (hperm.mem_iff.1 he) with he | he
    · exact (sets_entries ha e he).1
    · exact ⟨id, .unknown (hunknown e he)⟩
  rw [decode_eq_foldl hlib hsets hkeys, foldl_takeUp_perm hperm hsets hkeys, List.foldl_append, foldl_entries ha,
    foldl_unknown hunknown]

/-! ### Documents -/

/-- **Lines for what is assigned**, in any order and among lines for keys that are no settings. -/
def WrittenIn (Line : String → String × Node → Prop) (a : Assignment) (lines : List String) : Prop :=
  ∃ (foreign : List String) (unknown : Entries), List.Forall₂ Line foreign unknown ∧
    (∀ e ∈ unknown, e.1 ∉ names) ∧ (unknown.map Prod.fst).Nodup ∧ lines.Perm (a.lines ++ foreign)

section Library

variable (hformat : lib.Format Line) (hderived : lib.Derived)
include hformat hderived

/-- **A document whose table assigns settings** is read as the defaults with them, if these pass the check. -/
theorem ofDocument_of_table (ha : a.Small) {lines : List String} (hlines : List.Forall₂ Line lines es)
    (hperm : es.Perm (a.entries ++ unknown)) (hunknown : ∀ e ∈ unknown, e.1 ∉ names)
    (hdistinct : (unknown.map Prod.fst).Nodup) :
    ((a.onto {}).validate = .ok () → ofDocument lib (String.join lines) = .ok (a.onto {})) ∧
      ∀ e, (a.onto {}).validate = .error e → ofDocument lib (String.join lines) = .error (.invalid e) := by
  have hread := hformat.read hlines (nodup_keys hperm hunknown hdistinct)
  have hdecode := decode_of_perm hderived ha hperm hunknown hdistinct {}
  unfold ofDocument
  rw [hread, Option.bind_some, hdecode]
  exact ⟨fun hvalid => by simp only [hvalid], fun e hinvalid => by simp only [hinvalid]⟩

/-- **A document of lines is read as the defaults with what is assigned**, if these pass the check. -/
theorem ofDocument_join (ha : a.Small) {lines : List String} (h : WrittenIn Line a lines) :
    ((a.onto {}).validate = .ok () → ofDocument lib (String.join lines) = .ok (a.onto {})) ∧
      ∀ e, (a.onto {}).validate = .error e → ofDocument lib (String.join lines) = .error (.invalid e) := by
  obtain ⟨foreign, unknown, hforeign, hunknown, hdistinct, hlines⟩ := h
  obtain ⟨es, hes, hperm⟩ := List.perm_comp_forall₂ hlines (List.rel_append (forall₂_lines hformat ha) hforeign)
  exact ofDocument_of_table hformat hderived ha hes hperm hunknown hdistinct

/-- **A valid configuration is read back** from what it is written as. -/
theorem ofDocument_toDocument (hvalid : c.validate = .ok ()) (hc : ∀ p ∈ c.sizes, p.2 < 2 ^ 63) :
    ∃ s, toDocument lib c = some s ∧ ofDocument lib s = .ok c := by
  have hsmall : (Assignment.ofConfig c).Small := by
    intro p hp n hn
    have hsizes : (Assignment.ofConfig c).sizes = c.sizes.map fun p => (p.1, some p.2) := rfl
    rw [hsizes] at hp
    obtain ⟨q, hq, rfl⟩ := List.mem_map.1 hp
    exact Option.some.inj hn ▸ hc q hq
  have hperm : (lib.encode c).Perm ((Assignment.ofConfig c).entries ++ []) := by
    rw [List.append_nil]
    exact hderived.encode c
  have hflat : ∀ e ∈ lib.encode c, ∃ v, SpellsValue v e.2 := fun e he =>
    (sets_entries hsmall e (by simpa using hperm.mem_iff.1 he)).2
  obtain ⟨lines, hlines, hwrite⟩ := hformat.write hflat (nodup_keys hperm nofun .nil)
  have hread := (ofDocument_of_table hformat hderived hsmall hlines hperm nofun .nil).1
  rw [Assignment.onto_ofConfig] at hread
  exact ⟨String.join lines, hwrite, hread hvalid⟩

/-- **Configuration documents mean what they say**, for libraries that do what is documented.  A document of lines is
read as the defaults with what is assigned, or refused as the check of settings refuses that.  And a valid configuration
is read back from what it is written as. -/
theorem ofDocument_lines :
    (∀ (a : Assignment) (lines : List String), a.Small → WrittenIn Line a lines →
      ((a.onto {}).validate = .ok () → ofDocument lib (String.join lines) = .ok (a.onto {})) ∧
        ∀ e, (a.onto {}).validate = .error e → ofDocument lib (String.join lines) = .error (.invalid e)) ∧
    ∀ c : Config, c.validate = .ok () → (∀ p ∈ c.sizes, p.2 < 2 ^ 63) →
      ∃ s, toDocument lib c = some s ∧ ofDocument lib s = .ok c := by
  refine ⟨fun a lines ha hlines => ?_, fun c hvalid hc => ?_⟩
  · exact ofDocument_join hformat hderived ha hlines
  · exact ofDocument_toDocument hformat hderived hvalid hc

end Library

/-- Two settings out of order, and a line for something else. -/
theorem ofDocument_lines_partial :
    ofDocument library (String.join ["layout = \"native\"\n", "threads = -4\n", "max_stack_words = 8192\n"]) =
      .ok { maxStackWords := 8192, layout := .native } := by
  have hkey : SpellsKey "threads".toList "threads" := .bare (by decide) (List.all_eq_true.1 (by decide))
  have hline : String.ofList (lineOf "threads".toList (Text.signed (-4)).toList) = "threads = -4\n" := by decide
  have hvalue : SpellsValue (Text.signed (-4)).toList (.integer (-4)) := .integer (by decide) (by decide)
  have hthreads := format_library.spelled hkey hvalue
  rw [hline] at hthreads
  have hlines : (⟨none, none, some 8192, none, none, none, some .native⟩ : Assignment).lines =
      ["max_stack_words = 8192\n", "layout = \"native\"\n"] := by decide
  have hperm : ["layout = \"native\"\n", "threads = -4\n", "max_stack_words = 8192\n"].Perm
      (["max_stack_words = 8192\n", "layout = \"native\"\n"] ++ ["threads = -4\n"]) := by decide
  refine ((ofDocument_lines format_library derived_library).1 _ _ (by unfold Assignment.Small; decide)
    ⟨_, _, .cons hthreads .nil, by decide, by decide, hlines ▸ hperm⟩).1 rfl

end Config

end FiberStacks
