/-! Lists of pairs with increasing keys. -/

namespace ChoiceModel.Model

/-- Puts a value under a key, in place of the one it had. -/
def insertKey {α : Type} (key : String) (value : α) : List (String × α) → List (String × α)
  | [] => [(key, value)]
  | (k, v) :: rest =>
    if key < k then (key, value) :: (k, v) :: rest
    else if key == k then (key, value) :: rest
    else (k, v) :: insertKey key value rest

/-- The pairs of a list in the order of their keys; the last value of a key counts. -/
def ofPairs {α : Type} (pairs : List (String × α)) : List (String × α) :=
  pairs.foldl (fun sorted pair => insertKey pair.1 pair.2 sorted) []

end ChoiceModel.Model
