import PointMutation.Batch.Process
import PointMutation.Config.File

/-!
# Reports

A report says what a batch has done: with which seed, to how many files, how many of them failed,
and all records in the order of the files. It is a TOML document in which the seed is a string.
-/

namespace PointMutation

/-- What a batch has done. -/
structure Report where
  baseSeed : UInt64
  files : Nat
  failures : Nat
  records : List Record
  deriving DecidableEq, Repr

namespace Report

open ConfigFile (entry ofSize ofWords greatest)

/-- The report on the outcomes of all jobs. -/
def ofOutcomes (seed : UInt64) (rs : List (Except BatchFault Processed)) : Report :=
  let done := rs.filterMap (·.toOption)
  ⟨seed, rs.length, rs.length - done.length, done.flatMap (·.records)⟩

/-- The statements of a record. -/
def recordStatements (r : Record) : List Toml.Statement :=
  .arrayHeader ["results".toList] ::
    (match r.label with
      | some l => [entry "label" (.string l.toList)]
      | none => []) ++
    [entry "transformer" (.string r.mutator.toList),
     entry "categories" (ofWords (r.categories.map (·.name))),
     entry "attempts" (ofSize r.attempts),
     entry "applied" (.boolean r.applied)]

/-- The statements of a report. -/
def statements (r : Report) : List Toml.Statement :=
  [entry "base_seed" (.string (toString r.baseSeed.toNat).toList),
   entry "files" (ofSize r.files),
   entry "failures" (ofSize r.failures)] ++
  (if r.records.isEmpty then [entry "results" (.array [])]
    else r.records.flatMap recordStatements)

/-- Writes a report, if all its numbers have a place in a file. -/
def write (r : Report) : Except BatchFault Text :=
  if r.files ≤ greatest && r.failures ≤ greatest && r.records.all (·.attempts ≤ greatest) then
    .ok (Toml.write r.statements)
  else .error .unreported

end Report

end PointMutation
