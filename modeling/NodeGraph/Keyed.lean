/-! Association lists in increasing key order, each key once. -/
namespace NodeGraph

/-- Entries by key. Keys compare character by character, which is also the order of their UTF-8
bytes. -/
abbrev Keyed (α : Type) := List (String × α)

namespace Keyed

variable {α : Type}

/-- The last value given for a key is kept. -/
def insert (key : String) (value : α) : Keyed α → Keyed α
  | [] => [(key, value)]
  | (k, v) :: rest =>
    if key < k then (key, value) :: (k, v) :: rest
    else if key = k then (key, value) :: rest
    else (k, v) :: insert key value rest

def ofList (entries : List (String × α)) : Keyed α :=
  entries.foldl (fun acc entry => insert entry.1 entry.2 acc) []

def get? (key : String) : Keyed α → Option α
  | [] => none
  | (k, v) :: rest => if k = key then some v else get? key rest

def keys (entries : Keyed α) : List String :=
  entries.map (·.1)

theorem get?_insert_self (key : String) (value : α) (entries : Keyed α) :
    get? key (insert key value entries) = some value := by
  induction entries with
  | nil => simp [insert, get?]
  | cons entry rest ih => grind [insert, get?]

end Keyed
end NodeGraph
