import FiberStacks.Config.Document
import FiberStacks.Proofs.Documents.Lines
import Mathlib.Algebra.Ring.Nat
import Mathlib.Data.List.Nodup

/-!
# Libraries for documents

Reading and writing configurations relies on a library.  What is relied on is what is documented of its two parts, the
format of documents and the settings in tables; the library of the program does both.

* `DocumentLibrary.Format` — **tables of integers and texts are documents of lines**;
* `DocumentLibrary.Derived` — **settings are found by their names**, and those that are missing keep their defaults;
* `Config.Sets` — what an entry does to the settings; `Derived.decode_concat` — one more entry in a table;
* `Config.format_library`, `Config.derived_library` — the library of the program.
-/

namespace FiberStacks

open Toml (Entries Node Writes SpellsKey SpellsValue lineOf)

variable {es : Entries} {key : String} {n : Nat}

namespace Config

def sizeNames : List String :=
  ["init_stack_words", "fiber_stack_words", "max_stack_words", "stack_threshold_words", "minor_heap_words",
    "max_heap_words"]

def names : List String := sizeNames ++ ["layout"]

end Config

/-! ### What is documented -/

namespace DocumentLibrary

/-- **The documents of flat tables**, where `Line` says which lines stand for which entries. -/
structure Format (lib : DocumentLibrary) (Line : String → String × Node → Prop) : Prop where
  /-- A key, bare or in quotes, and an integer of 64 bits or a text make a line. -/
  spelled : ∀ {k v : List Char} {key : String} {node : Node}, SpellsKey k key → SpellsValue v node →
    Line (String.ofList (lineOf k v)) (key, node)
  /-- Lines with different keys are a document; its table has their entries. -/
  read : ∀ {lines : List String} {es : Entries}, List.Forall₂ Line lines es → (es.map Prod.fst).Nodup →
    lib.read (String.join lines) = some es
  /-- A table of integers of 64 bits and texts is written as lines. -/
  write : ∀ {es : Entries}, (∀ e ∈ es, ∃ v, SpellsValue v e.2) → (es.map Prod.fst).Nodup →
    ∃ lines, List.Forall₂ Line lines es ∧ lib.write es = some (String.join lines)

/-- **The settings in tables**, field by field. -/
structure Derived (lib : DocumentLibrary) : Prop where
  /-- What is missing keeps its default. -/
  missing : ∀ c, lib.decode c [] = some c
  /-- A size is the integer at its name. -/
  size : ∀ (c : Config) {es : Entries} {key : String} {n : Nat}, key ∈ Config.sizeNames → n < 2 ^ 63 →
    key ∉ es.map Prod.fst → lib.decode c (es ++ [(key, .integer n)]) = (lib.decode c es).map (·.setSize key n)
  /-- The layout is named by a text. -/
  layout : ∀ (c : Config) {es : Entries} (k : LayoutKind), "layout" ∉ es.map Prod.fst →
    lib.decode c (es ++ [("layout", .text k.name)]) = (lib.decode c es).map ({ · with layout := k })
  /-- Other names are ignored. -/
  unknown : ∀ (c : Config) {es : Entries} {key : String} (v : Node), key ∉ Config.names → key ∉ es.map Prod.fst →
    lib.decode c (es ++ [(key, v)]) = lib.decode c es
  /-- All settings are written, each under its name. -/
  encode : ∀ c : Config,
    (lib.encode c).Perm ((c.sizes.map fun p => (p.1, .integer p.2)) ++ [("layout", .text c.layout.name)])

end DocumentLibrary

/-! ### Entries -/

namespace Config

/-- **What an entry does to the settings.** -/
inductive Sets : String × Node → (Config → Config) → Prop
  | size {key : String} {n : Nat} (h : key ∈ sizeNames) (hn : n < 2 ^ 63) : Sets (key, .integer n) (·.setSize key n)
  | layout (k : LayoutKind) : Sets ("layout", .text k.name) ({ · with layout := k })
  | unknown {e : String × Node} (h : e.1 ∉ names) : Sets e id

end Config

/-- **One more entry in a table** does to the settings what it stands for. -/
theorem DocumentLibrary.Derived.decode_concat {lib : DocumentLibrary} (h : lib.Derived) {e : String × Node}
    {f : Config → Config} (he : Config.Sets e f) (hkey : e.1 ∉ es.map Prod.fst) (c : Config) :
    lib.decode c (es ++ [e]) = (lib.decode c es).map f := by
  cases he with
  | size hname hn => exact h.size c hname hn hkey
  | layout k => exact h.layout c k hkey
  | unknown hname => rw [Option.map_id]; exact h.unknown c e.2 hname hkey

/-! ### The library of the program -/

namespace Config

theorem isSome_lookup_sizes (c : Config) (key : String) : (c.sizes.lookup key).isSome = true ↔ key ∈ sizeNames := by
  rw [List.lookup_isSome_iff, show sizeNames = c.sizes.map Prod.fst from rfl, List.mem_map]
  exact exists_congr fun p => and_congr_right fun _ => beq_iff_eq.trans eq_comm

theorem setEntry?_of_sets {e : String × Node} {f : Config → Config} (h : Sets e f) (c : Config) :
    setEntry? c e = some (f c) := by
  cases h with
  | @size key n h =>
    have hne : key ≠ "layout" := by
      rintro rfl
      exact absurd h (by decide)
    rw [ setEntry?, if_neg hne, if_pos ((isSome_lookup_sizes c key).2 h), sizeOfNode?, if_pos (Int.natCast_nonneg n)]
    rfl
  | layout k =>
    rw [ setEntry?, if_pos rfl, layoutOfNode?, LayoutKind.ofName?_name]
    rfl
  | unknown h =>
    obtain ⟨hsize, hlayout⟩ := not_or.1 (mt List.mem_append.2 h)
    obtain ⟨key, v⟩ := e
    rw [ setEntry?, if_neg fun hkey => hlayout (List.mem_singleton.2 hkey),
      if_neg (mt (isSome_lookup_sizes c key).1 hsize)]
    rfl

theorem ofEntries?_concat {e : String × Node} {f : Config → Config} (he : Sets e f) (c : Config) (es : Entries) :
    ofEntries? c (es ++ [e]) = (ofEntries? c es).map f := by
  unfold ofEntries?
  rw [List.foldlM_append]
  cases es.foldlM setEntry? c with
  | none => rfl
  | some d => exact (congrArg (· >>= pure) (setEntry?_of_sets he d)).trans rfl

/-- **It takes settings from tables** as documented. -/
theorem derived_library : library.Derived where
  missing _ := rfl
  size c _ _ _ hname hn _ := ofEntries?_concat (.size hname hn) c _
  layout c _ k _ := ofEntries?_concat (.layout k) c _
  unknown c _ _ v hname _ := (ofEntries?_concat (e := (_, v)) (.unknown hname) c _).trans Option.map_id'
  encode _ := .refl _

/-- **It reads and writes documents** as documented. -/
theorem format_library : library.Format Writes where
  spelled := Toml.writes_of_spells
  read := Toml.read_join
  write hflat _ := Toml.exists_write hflat

end Config

end FiberStacks
