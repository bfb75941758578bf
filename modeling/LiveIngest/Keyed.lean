/-!
# Keyed lists

A finite map kept as the list of its entries in ascending key order, one entry per key. The order is
part of the value, so that walking a map (to write the properties of an object, to serve chunk
streams by priority) needs no further choice.

* `Keyed.get?` — the entry of a key;
* `Keyed.put` — insert, or replace the entry of an equal key.
-/

namespace LiveIngest

/-- Entries in ascending key order. -/
abbrev Keyed (κ α : Type) := List (κ × α)

namespace Keyed

variable {κ α : Type} [DecidableEq κ] [LT κ] [DecidableRel (α := κ) (· < ·)]

omit [LT κ] [DecidableRel (α := κ) (· < ·)] in
/-- The entry of key `k`. -/
def get? (k : κ) : Keyed κ α → Option α
  | [] => none
  | (j, a) :: rest => if j = k then some a else get? k rest

/-- Insert an entry at its place; an entry with the same key gives way. -/
def put (k : κ) (a : α) : Keyed κ α → Keyed κ α
  | [] => [(k, a)]
  | (j, b) :: rest =>
    if k = j then (k, a) :: rest
    else if k < j then (k, a) :: (j, b) :: rest
    else (j, b) :: put k a rest

/-- Collect entries; of two entries with one key the later one stays. -/
def ofList (entries : List (κ × α)) : Keyed κ α :=
  entries.foldl (fun m e => m.put e.1 e.2) []

end Keyed

end LiveIngest
