/-!
# Predefined exceptions

The thirteen exceptions that the stack machinery itself can raise or recognise, in the order of the table that
holds their identifiers.

* `Exn.name` — what an exception is printed as;
* `Exn.symbol` — what a fatal error during start-up calls it;
* `Exn.index` — its place in the table.
-/

namespace FiberStacks

inductive Exn where
  | outOfMemory
  | sysError
  | failure
  | invalidArgument
  | endOfFile
  | divisionByZero
  | notFound
  | matchFailure
  | stackOverflow
  | sysBlocked
  | assertFailure
  | undefinedRecursiveModule
  | unhandled
deriving DecidableEq, Repr

namespace Exn

/-- All predefined exceptions, in the order of the table. -/
def all : List Exn :=
  [outOfMemory, sysError, failure, invalidArgument, endOfFile, divisionByZero, notFound, matchFailure,
    stackOverflow, sysBlocked, assertFailure, undefinedRecursiveModule, unhandled]

def name : Exn → String
  | outOfMemory => "Out_of_memory"
  | sysError => "Sys_error"
  | failure => "Failure"
  | invalidArgument => "Invalid_argument"
  | endOfFile => "End_of_file"
  | divisionByZero => "Division_by_zero"
  | notFound => "Not_found"
  | matchFailure => "Match_failure"
  | stackOverflow => "Stack_overflow"
  | sysBlocked => "Sys_blocked_io"
  | assertFailure => "Assert_failure"
  | undefinedRecursiveModule => "Undefined_recursive_module"
  | unhandled => "Unhandled"

def symbol : Exn → String
  | outOfMemory => "OUT_OF_MEMORY_EXN"
  | sysError => "SYS_ERROR_EXN"
  | failure => "FAILURE_EXN"
  | invalidArgument => "INVALID_EXN"
  | endOfFile => "END_OF_FILE_EXN"
  | divisionByZero => "ZERO_DIVIDE_EXN"
  | notFound => "NOT_FOUND_EXN"
  | matchFailure => "MATCH_FAILURE_EXN"
  | stackOverflow => "STACK_OVERFLOW_EXN"
  | sysBlocked => "SYS_BLOCKED_IO"
  | assertFailure => "ASSERT_FAILURE_EXN"
  | undefinedRecursiveModule => "UNDEFINED_RECURSIVE_MODULE_EXN"
  | unhandled => "UNHANDLED_EXN"

def index (e : Exn) : Nat := e.ctorIdx

def ofName? (s : String) : Option Exn := all.find? fun e => e.name == s

theorem all_getElem?_index (e : Exn) : all[e.index]? = some e := by
  cases e <;> rfl

end Exn

end FiberStacks
